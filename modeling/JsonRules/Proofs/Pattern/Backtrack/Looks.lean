import Mathlib
import JsonRules.Pattern.Dialects
import JsonRules.Proofs.Pattern.Backtrack.Budget
import JsonRules.Proofs.Pattern.Linear.Plan
import JsonRules.Proofs.Unicode.CodeSet

/-!
# What the machine sees on both sides of a position

A thread that looks at the character before or after its position goes on from there, or fails. The
machine is followed step by step: `Ends` says how a run ends from a thread, `Resumes` how it ends
where the thread fails. Word boundaries are alternatives of two looks each.
-/

namespace JsonRules.Pattern.Backtrack

open Linear (wordAt wordBefore isWordChar charPositions allPositions Places)

namespace Machine

/-- With this much fuel and this many steps back, and with any more, the run ends like this. -/
def Ends (h : Haystack) (fuel budget : Nat) (t : Thread) (count : Nat) (kept : List Thread)
    (outcome : Outcome) : Prop :=
  ∀ more larger, fuel ≤ more → budget ≤ larger → run h more larger t count kept = outcome

/-- The run ends like this where a thread fails. -/
def Resumes (h : Haystack) (fuel budget count : Nat) (kept : List Thread) (outcome : Outcome) :
    Prop :=
  ∀ more larger, fuel ≤ more → budget ≤ larger → back h more larger count kept = outcome

variable {h : Haystack} {fuel budget count i : Nat} {kept : List Thread} {outcome : Outcome}
  {captures : List Capture} {task : Task} {rest : List Task}

theorem Resumes.nil : Resumes h 0 0 count [] .unmatched := fun _ _ _ _ => rfl

theorem Resumes.cons {t : Thread} (hends : Ends h fuel budget t (count - 1) kept outcome) :
    Resumes h fuel (budget + 1) count (t :: kept) outcome := by
  intro more larger hfuel hbudget
  obtain ⟨larger, rfl⟩ : ∃ n, larger = n + 1 := ⟨larger - 1, by omega⟩
  exact hends more larger hfuel (by omega)

theorem Ends.weaken {more larger : Nat} {t : Thread}
    (hends : Ends h fuel budget t count kept outcome) (hfuel : fuel ≤ more)
    (hbudget : budget ≤ larger) : Ends h more larger t count kept outcome :=
  fun _ _ hmore hlarger => hends _ _ (Nat.le_trans hfuel hmore) (Nat.le_trans hbudget hlarger)

theorem Resumes.weaken {more larger : Nat} (hresumes : Resumes h fuel budget count kept outcome)
    (hfuel : fuel ≤ more) (hbudget : budget ≤ larger) :
    Resumes h more larger count kept outcome :=
  fun _ _ hmore hlarger => hresumes _ _ (Nat.le_trans hfuel hmore) (Nat.le_trans hbudget hlarger)

theorem Ends.done : Ends h 1 0 ⟨[], i, captures⟩ count kept .matched := by
  intro more larger hfuel _
  obtain ⟨more, rfl⟩ : ∃ n, more = n + 1 := ⟨more - 1, by omega⟩
  rfl

def after (h : Haystack) (fuel budget count : Nat) (kept : List Thread) : Move → Outcome
  | .go t => run h fuel budget t count kept
  | .split t other => run h fuel budget t (count + 1) (other :: kept)
  | .fail => back h fuel budget count kept
  | .cut t n => run h fuel budget t n (keepFirst n count kept)
  | .failCut n => back h fuel budget n (keepFirst n count kept)

theorem run_cons : run h (fuel + 1) budget ⟨task :: rest, i, captures⟩ count kept =
    after h fuel budget count kept (task.exec h count ⟨task :: rest, i, captures⟩ rest) := by
  rw [run]
  simp only
  cases task.exec h count ⟨task :: rest, i, captures⟩ rest <;> rfl

theorem Ends.of_after (hafter : ∀ more larger, fuel ≤ more → budget ≤ larger →
      after h more larger count kept (task.exec h count ⟨task :: rest, i, captures⟩ rest) =
        outcome) :
    Ends h (fuel + 1) budget ⟨task :: rest, i, captures⟩ count kept outcome := by
  intro more larger hfuel hbudget
  obtain ⟨more, rfl⟩ : ∃ n, more = n + 1 := ⟨more - 1, by omega⟩
  rw [run_cons]
  exact hafter more larger (by omega) hbudget

theorem Ends.go {t : Thread}
    (hexec : task.exec h count ⟨task :: rest, i, captures⟩ rest = .go t)
    (hends : Ends h fuel budget t count kept outcome) :
    Ends h (fuel + 1) budget ⟨task :: rest, i, captures⟩ count kept outcome := by
  apply Ends.of_after
  rw [hexec]
  exact hends

theorem Ends.split {t other : Thread}
    (hexec : task.exec h count ⟨task :: rest, i, captures⟩ rest = .split t other)
    (hends : Ends h fuel budget t (count + 1) (other :: kept) outcome) :
    Ends h (fuel + 1) budget ⟨task :: rest, i, captures⟩ count kept outcome := by
  apply Ends.of_after
  rw [hexec]
  exact hends

theorem Ends.fail (hexec : task.exec h count ⟨task :: rest, i, captures⟩ rest = .fail)
    (hresumes : Resumes h fuel budget count kept outcome) :
    Ends h (fuel + 1) budget ⟨task :: rest, i, captures⟩ count kept outcome := by
  apply Ends.of_after
  rw [hexec]
  exact hresumes

theorem Ends.failCut {n : Nat}
    (hexec : task.exec h count ⟨task :: rest, i, captures⟩ rest = .failCut n)
    (hresumes : Resumes h fuel budget n (keepFirst n count kept) outcome) :
    Ends h (fuel + 1) budget ⟨task :: rest, i, captures⟩ count kept outcome := by
  apply Ends.of_after
  rw [hexec]
  exact hresumes

end Machine

section Words

def wordPiece : Piece := ⟨.set NamedSet.word.codes, some 1⟩

def readyWord (text : List Char) : ReadyPiece :=
  wordPiece.ready text (Places.ofText text) (allPositions text)

theorem has_word (c : Char) : NamedSet.word.codes.has c = isWordChar c := by
  have hunderscore : c = '_' ↔ c.toNat = 95 :=
    ⟨fun h => h ▸ rfl, fun h => Char.ext (UInt32.toNat_inj.1 h)⟩
  rw [Bool.eq_iff_iff]
  simp only [Unicode.CodeSet.has, NamedSet.codes, Unicode.CodeSet.contains_cons,
    Unicode.CodeSet.not_contains_nil, Unicode.CodeRange.Has, isWordChar, Char.isAlphanum,
    Char.isAlpha, Char.isUpper, Char.isLower, Char.isDigit, Bool.or_eq_true, Bool.and_eq_true,
    Bool.false_eq_true, or_false, decide_eq_true_eq, hunderscore, UInt32.le_iff_toNat_le, ge_iff_le]
  show ((48 ≤ c.toNat ∧ c.toNat ≤ 57) ∨ (65 ≤ c.toNat ∧ c.toNat ≤ 90) ∨
      (95 ≤ c.toNat ∧ c.toNat ≤ 95) ∨ (97 ≤ c.toNat ∧ c.toNat ≤ 122)) ↔
    (((65 ≤ c.toNat ∧ c.toNat ≤ 90) ∨ (97 ≤ c.toNat ∧ c.toNat ≤ 122)) ∨
      (48 ≤ c.toNat ∧ c.toNat ≤ 57)) ∨ c.toNat = 95
  omega

/-- The piece matches at the positions before the word characters. -/
theorem pieceEnd?_word (text : List Char) (i : Nat) :
    (Haystack.ofText text).pieceEnd? (readyWord text) i =
      if wordAt text i then some (i + 1) else none := by
  have hplaces : (readyWord text).places.testBit i = wordAt text i := by
    show ((allPositions text >>> 1) &&& charPositions NamedSet.word.codes.has text).testBit i = _
    rw [Nat.testBit_and, Nat.testBit_shiftRight, Linear.testBit_charPositions, Bool.eq_iff_iff,
      Bool.and_eq_true, Linear.testBit_allPositions, funext has_word]
    show _ ∧ wordAt text i = true ↔ wordAt text i = true
    refine and_iff_right_of_imp fun hword => ?_
    obtain ⟨c, hc, -⟩ := (Option.any_eq_true _ _).1 hword
    have := (List.getElem?_eq_some_iff.1 hc).1
    omega
  rw [Haystack.pieceEnd?, hplaces]
  rfl

/-- The character a number of places before a position is a word character. -/
def wordBack (text : List Char) (back i : Nat) : Bool := decide (back ≤ i) && wordAt text (i - back)

theorem wordBack_zero (text : List Char) (i : Nat) : wordBack text 0 i = wordAt text i := by
  simp [wordBack]

theorem wordBack_one (text : List Char) (i : Nat) : wordBack text 1 i = wordBefore text i := by
  cases i <;> simp [wordBack, wordBefore]

open Machine

variable {text : List Char} {back i fuel budget count : Nat} {negative : Bool} {kept : List Thread}
  {outcome : Outcome} {captures : List Capture} {rest : List Task}

def lookWord (text : List Char) (back : Nat) (negative : Bool) : Program ReadyPiece :=
  .look back negative (.piece (readyWord text))

theorem exec_word (t : Thread) :
    (Task.run (.piece (readyWord text))).exec (.ofText text) count t rest =
      if wordAt text t.position then .go { t with tasks := rest, position := t.position + 1 }
      else .fail := by
  rw [Task.exec, pieceEnd?_word]
  cases wordAt text t.position <;> rfl

/-- A thread that sees what it looks for goes on from its position. -/
theorem ends_of_sees (hsees : wordBack text back i ≠ negative)
    (hrest : Ends (.ofText text) fuel budget ⟨rest, i, captures⟩ count kept outcome) :
    Ends (.ofText text) (fuel + 3) (budget + 1)
      ⟨.run (lookWord text back negative) :: rest, i, captures⟩ count kept outcome := by
  cases negative with
  | false =>
    rw [ne_eq, Bool.not_eq_false, wordBack, Bool.and_eq_true, decide_eq_true_iff] at hsees
    obtain ⟨hback, hword⟩ := hsees
    have hreturn : Ends (.ofText text) (fuel + 1) budget
        ⟨.returnTo i :: rest, i - back + 1, captures⟩ count kept outcome := .go rfl hrest
    refine .weaken ?_ (Nat.le_refl _) (Nat.le_succ budget)
    refine .go (if_neg (Nat.not_lt.2 hback)) (.go ?_ hreturn)
    rw [exec_word, if_pos hword]
  | true =>
    rw [ne_eq, Bool.not_eq_true, wordBack, Bool.and_eq_false_iff, decide_eq_false_iff_not] at hsees
    by_cases hback : i < back
    · exact .weaken (.go (if_pos hback) hrest) (by omega) (Nat.le_succ budget)
    · have hword := hsees.resolve_left fun hlt => hlt (Nat.le_of_not_lt hback)
      refine .weaken ?_ (by omega : fuel + 2 ≤ fuel + 3) (Nat.le_refl _)
      refine .split (if_neg hback) (.fail ?_ (.cons hrest))
      rw [exec_word, hword]
      rfl

/-- A thread that does not see what it looks for fails. -/
theorem ends_of_misses (hmisses : wordBack text back i = negative)
    (hresumes : Resumes (.ofText text) fuel budget count kept outcome) :
    Ends (.ofText text) (fuel + 3) budget
      ⟨.run (lookWord text back negative) :: rest, i, captures⟩ count kept outcome := by
  cases negative with
  | false =>
    rw [wordBack, Bool.and_eq_false_iff, decide_eq_false_iff_not] at hmisses
    by_cases hback : i < back
    · exact .weaken (.fail (if_pos hback) hresumes) (by omega) (Nat.le_refl budget)
    · have hword := hmisses.resolve_left fun hlt => hlt (Nat.le_of_not_lt hback)
      refine .weaken ?_ (by omega : fuel + 2 ≤ fuel + 3) (Nat.le_refl _)
      refine .go (if_neg hback) (.fail ?_ hresumes)
      rw [exec_word, hword]
      rfl
  | true =>
    rw [wordBack, Bool.and_eq_true, decide_eq_true_iff] at hmisses
    obtain ⟨hback, hword⟩ := hmisses
    -- the look is refuted, and the thread that was kept for its success is dropped
    have hkept : ∀ t, keepFirst count (count + 1) (t :: kept) = kept := by
      intro t
      rw [keepFirst, Nat.add_sub_cancel_left]
      rfl
    have hrefute : Ends (.ofText text) (fuel + 1) budget
        ⟨.refute count :: rest, i - back + 1, captures⟩ (count + 1)
        (⟨rest, i, captures⟩ :: kept) outcome := by
      apply Ends.failCut rfl
      rwa [hkept]
    refine .split (if_neg (Nat.not_lt.2 hback)) (.go ?_ hrefute)
    rw [exec_word, if_pos hword]

/-- A look at the character before a position and one at the character after it. -/
def sideProgram (text : List Char) (before after : Bool) : Program ReadyPiece :=
  .seq [lookWord text 1 before, lookWord text 0 after]

def SidePasses (text : List Char) (i : Nat) (before after : Bool) : Prop :=
  wordBefore text i ≠ before ∧ wordAt text i ≠ after

instance (text : List Char) (i : Nat) (before after : Bool) :
    Decidable (SidePasses text i before after) := inferInstanceAs (Decidable (_ ∧ _))

variable {before after : Bool}

theorem ends_of_passes (hpasses : SidePasses text i before after)
    (hrest : Ends (.ofText text) fuel budget ⟨rest, i, captures⟩ count kept outcome) :
    Ends (.ofText text) (fuel + 7) (budget + 2)
      ⟨.run (sideProgram text before after) :: rest, i, captures⟩ count kept outcome := by
  obtain ⟨hbefore, hafter⟩ := hpasses
  rw [← wordBack_one] at hbefore
  rw [← wordBack_zero] at hafter
  exact .go rfl (ends_of_sees hbefore (ends_of_sees hafter hrest))

theorem ends_of_not_passes (hnot : ¬SidePasses text i before after)
    (hresumes : Resumes (.ofText text) fuel budget count kept outcome) :
    Ends (.ofText text) (fuel + 7) (budget + 1)
      ⟨.run (sideProgram text before after) :: rest, i, captures⟩ count kept outcome := by
  refine .go rfl ?_
  by_cases hbefore : wordBefore text i = before
  · rw [← wordBack_one] at hbefore
    exact .weaken (ends_of_misses hbefore hresumes) (by omega) (Nat.le_succ budget)
  · have hafter : wordAt text i = after := Classical.not_not.1 fun h => hnot ⟨hbefore, h⟩
    rw [← wordBack_one] at hbefore
    rw [← wordBack_zero] at hafter
    exact ends_of_sees hbefore (ends_of_misses hafter hresumes)

def sidesProgram (text : List Char) (a b c d : Bool) : Program ReadyPiece :=
  .alt [sideProgram text a b, sideProgram text c d]

variable {a b c d : Bool}

/-- The last of the alternatives ends the run, where no other thread is kept. -/
theorem ends_last : Ends (.ofText text) 9 2 ⟨[.run (.alt [sideProgram text c d])], i, captures⟩
    count [] (if SidePasses text i c d then .matched else .unmatched) := by
  refine .go rfl ?_
  split
  next hpasses => exact ends_of_passes hpasses .done
  next hnot => exact .weaken (ends_of_not_passes hnot .nil) (by omega) (by omega)

theorem ends_sides : Ends (.ofText text) 17 4 ⟨[.run (sidesProgram text a b c d)], i, captures⟩
    count []
    (if SidePasses text i a b ∨ SidePasses text i c d then .matched else .unmatched) := by
  refine .split rfl ?_
  by_cases hpasses : SidePasses text i a b
  · rw [if_pos (.inl hpasses)]
    exact .weaken (ends_of_passes hpasses .done) (by omega) (by omega)
  · simp only [or_iff_right hpasses]
    exact ends_of_not_passes hpasses (.cons ends_last)

end Words

section Boundaries

/-- A look behind at a word character and one ahead. -/
def sideExpr (before after : Bool) : Expr :=
  .concat [.look true before (.set NamedSet.word.codes),
    .look false after (.set NamedSet.word.codes)]

def sidesExpr (a b c d : Bool) : Expr := .alt [sideExpr a b, sideExpr c d]

theorem ofText?_boundary :
    Expr.ofText? boundaryText = some (sidesExpr false true true false) := by cbv

theorem ofText?_noBoundary :
    Expr.ofText? noBoundaryText = some (sidesExpr false false true true) := by cbv

/-- The program for alternatives of a look on each side, which does not depend on what stands
around them. -/
def sidesPieces (a b c d : Bool) : Program Piece :=
  .alt [.seq [.look 1 a (.piece wordPiece), .look 0 b (.piece wordPiece)],
    .seq [.look 1 c (.piece wordPiece), .look 0 d (.piece wordPiece)]]

theorem compile?_sides (refs : List Nat) (hard : Bool) (a b c d : Bool) :
    (sidesExpr a b c d).compile? refs hard = some (sidesPieces a b c d) := by
  cases hard <;> rfl

theorem runAt_sides (a b c d : Bool) (groups limit : Nat) (text : List Char) (i : Nat) :
    (sidesPieces a b c d).runAt groups (limit + 4) text i =
      if SidePasses text i a b ∨ SidePasses text i c d then .matched else .unmatched := by
  have hfuel : 17 ≤ (limit + 4 + 1) * ((sidesProgram text a b c d).steps text.length + 2) := by
    show 17 ≤ (limit + 4 + 1) * 27
    omega
  exact ends_sides _ _ hfuel (Nat.le_add_left 4 limit)

/-- One neighbour is a word character and the other is not. -/
theorem sidePasses_boundary (text : List Char) (i : Nat) :
    SidePasses text i false true ∨ SidePasses text i true false ↔
      Linear.Assertion.wordBoundary.holds text i = true := by
  rw [SidePasses, SidePasses, Linear.Assertion.holds]
  cases wordBefore text i <;> cases wordAt text i <;> decide

/-- Both neighbours are word characters, or neither is. -/
theorem sidePasses_noBoundary (text : List Char) (i : Nat) :
    SidePasses text i false false ∨ SidePasses text i true true ↔
      ¬Linear.Assertion.wordBoundary.holds text i = true := by
  rw [SidePasses, SidePasses, Linear.Assertion.holds]
  cases wordBefore text i <;> cases wordAt text i <;> decide

end Boundaries

end JsonRules.Pattern.Backtrack
