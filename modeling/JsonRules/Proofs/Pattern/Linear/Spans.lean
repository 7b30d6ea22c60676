import JsonRules.Pattern.Linear.Regex

/-!
# Stretches of a text

What an expression spans, read off its parts. A repetition spans a number of stretches of its body
one after the other, and as no stretch leads back, it needs no more of them than it takes
characters.
-/

namespace JsonRules.Pattern.Linear

section Times

variable {R : Nat → Nat → Prop} {m n i j k : Nat}

theorem Times.append (h : Times R m i j) (h' : Times R n j k) : Times R (m + n) i k := by
  induction m generalizing i with
  | zero => obtain rfl : i = j := h; rwa [Nat.zero_add]
  | succ m ih =>
    obtain ⟨x, hx, hrest⟩ := h
    rw [Nat.add_right_comm]
    exact ⟨x, hx, ih hrest⟩

theorem Times.split (h : Times R (m + n) i k) : ∃ j, Times R m i j ∧ Times R n j k := by
  induction m generalizing i with
  | zero => exact ⟨i, rfl, by rwa [Nat.zero_add] at h⟩
  | succ m ih =>
    rw [Nat.add_right_comm] at h
    obtain ⟨x, hx, hrest⟩ := h
    obtain ⟨j, hm, hn⟩ := ih hrest
    exact ⟨j, ⟨x, hx, hm⟩, hn⟩

/-- What one stretch preserves, any number of them does. -/
theorem Times.preserves {P : Nat → Prop} (hP : ∀ i j, R i j → P i → P j) (h : Times R n i j)
    (hi : P i) : P j := by
  induction n generalizing i with
  | zero => obtain rfl : i = j := h; exact hi
  | succ n ih =>
    obtain ⟨x, hx, hrest⟩ := h
    exact ih hrest (hP i x hx hi)

theorem Times.le (hle : ∀ i j, R i j → i ≤ j) (h : Times R n i j) : i ≤ j :=
  h.preserves (fun x y hxy hix => Nat.le_trans hix (hle x y hxy)) (Nat.le_refl i)

/-- Stretches that take nothing can be left out. -/
theorem Times.shorten (hle : ∀ i j, R i j → i ≤ j) (h : Times R n i j) :
    ∃ m, m ≤ j - i ∧ Times R m i j := by
  induction n generalizing i with
  | zero => exact ⟨0, Nat.zero_le _, h⟩
  | succ n ih =>
    obtain ⟨x, hx, hrest⟩ := h
    obtain ⟨m, hm, hrest'⟩ := ih hrest
    have hix := hle i x hx
    have hxj := hrest.le hle
    rcases Nat.eq_or_lt_of_le hix with rfl | hlt
    · exact ⟨m, hm, hrest'⟩
    · exact ⟨m + 1, by omega, x, hx, hrest'⟩

theorem times_congr {S : Nat → Nat → Prop} (h : ∀ i j, R i j ↔ S i j) :
    Times R n i j ↔ Times S n i j := by
  obtain rfl : R = S := funext fun i => funext fun j => propext (h i j)
  exact Iff.rfl

end Times

/-- The number of stretches is one that a repetition allows. -/
def InBounds (least : Nat) (most : Option Nat) (n : Nat) : Prop :=
  least ≤ n ∧ ∀ m, most = some m → n ≤ m

/-- An assertion holds nowhere behind the text. -/
theorem Assertion.le_length {text : List Char} {a : Assertion} {i : Nat}
    (h : a.holds text i = true) : i ≤ text.length := by
  cases a with
  | start =>
    rw [beq_iff_eq.1 h]
    exact Nat.zero_le _
  | stop => exact Nat.le_of_eq (beq_iff_eq.1 h)
  | wordBoundary =>
    cases i with
    | zero => exact Nat.zero_le _
    | succ i =>
      refine Nat.le_of_not_lt fun hlt => ?_
      have hout : wordAt text i = false ∧ wordAt text (i + 1) = false := by
        rw [wordAt, wordAt, List.getElem?_eq_none (by omega), List.getElem?_eq_none (by omega)]
        exact ⟨rfl, rfl⟩
      rw [holds, wordBefore, hout.1, hout.2] at h
      cases h

namespace Regex

variable {text : List Char} {r s : Regex} {i j : Nat}

theorem spans_empty : Spans text empty i j ↔ i = j :=
  ⟨fun h => by cases h; rfl, fun h => h ▸ .empty⟩

theorem spans_set {chars : Unicode.CodeSet} :
    Spans text (set chars) i j ↔ j = i + 1 ∧ ∃ c, text[i]? = some c ∧ chars.has c = true := by
  constructor
  · intro h; cases h with | set h hc => exact ⟨rfl, _, h, hc⟩
  · rintro ⟨rfl, c, h, hc⟩; exact .set h hc

theorem spans_assert {a : Assertion} :
    Spans text (assert a) i j ↔ i = j ∧ a.holds text i = true := by
  constructor
  · intro h; cases h with | assert hi h => exact ⟨rfl, h⟩
  · rintro ⟨rfl, h⟩; exact .assert (Assertion.le_length h) h

theorem spans_seq {k : Nat} :
    Spans text (seq r s) i k ↔ ∃ j, Spans text r i j ∧ Spans text s j k := by
  constructor
  · intro h; cases h with | seq hr hs => exact ⟨_, hr, hs⟩
  · rintro ⟨j, hr, hs⟩; exact .seq hr hs

theorem spans_alt : Spans text (alt r s) i j ↔ Spans text r i j ∨ Spans text s i j := by
  constructor
  · intro h
    cases h with
    | altLeft h => exact .inl h
    | altRight h => exact .inr h
  · rintro (h | h)
    · exact .altLeft h
    · exact .altRight h

theorem spans_rep {least : Nat} {most : Option Nat} {greedy : Bool}
    (h : ∀ m, most = some m → least ≤ m) :
    Spans text (rep least most greedy r) i j ↔
      ∃ n, InBounds least most n ∧ Times (Spans text r) n i j := by
  constructor
  · clear h
    generalize hx : rep least most greedy r = x
    intro hspans
    induction hspans generalizing least most with
    | repDone => cases hx; exact ⟨0, ⟨Nat.le_refl 0, fun _ _ => Nat.zero_le _⟩, rfl⟩
    | @repMore least most g r i j k hm hr hs _ ih =>
      cases hx
      obtain ⟨n, ⟨hleast, hmost⟩, htimes⟩ := ih rfl
      refine ⟨n + 1, ⟨by omega, ?_⟩, _, hr, htimes⟩
      rintro m rfl
      have hpos : m ≠ 0 := fun h0 => hm (congrArg some h0)
      have := hmost (m - 1) rfl
      omega
    | _ => cases hx
  · rintro ⟨n, hn, htimes⟩
    induction n generalizing least most i with
    | zero =>
      obtain rfl : least = 0 := Nat.le_zero.1 hn.1
      obtain rfl : i = j := htimes
      exact .repDone
    | succ n ih =>
      obtain ⟨x, hx, hrest⟩ := htimes
      refine .repMore ?_ hx (ih ?_ ⟨by have := hn.1; omega, ?_⟩ hrest)
      · rintro rfl
        exact absurd (hn.2 0 rfl) (Nat.not_succ_le_zero n)
      · intro m hm
        obtain ⟨m', rfl, rfl⟩ := Option.map_eq_some_iff.1 hm
        have := h m' rfl
        omega
      · intro m hm
        obtain ⟨m', rfl, rfl⟩ := Option.map_eq_some_iff.1 hm
        have := hn.2 m' rfl
        omega

/-- A stretch leads forward and stays in the text. -/
theorem Spans.bounds (h : Spans text r i j) : i ≤ j ∧ (i ≤ text.length → j ≤ text.length) := by
  induction h with
  | empty => exact ⟨Nat.le_refl _, id⟩
  | @set chars i c h =>
    exact ⟨Nat.le_succ _, fun _ => (List.getElem?_eq_some_iff.1 h).1⟩
  | assert => exact ⟨Nat.le_refl _, id⟩
  | seq _ _ ihr ihs => exact ⟨Nat.le_trans ihr.1 ihs.1, fun hi => ihs.2 (ihr.2 hi)⟩
  | altLeft _ ih => exact ih
  | altRight _ ih => exact ih
  | repDone => exact ⟨Nat.le_refl _, id⟩
  | repMore _ _ _ ihr ihs => exact ⟨Nat.le_trans ihr.1 ihs.1, fun hi => ihs.2 (ihr.2 hi)⟩

/-- No repetition asks for more of its body than it allows. -/
def Satisfiable : Regex → Prop
  | empty | set _ | assert _ => True
  | seq r s => r.Satisfiable ∧ s.Satisfiable
  | alt r s => r.Satisfiable ∧ s.Satisfiable
  | rep least most _ r => (∀ m, most = some m → least ≤ m) ∧ r.Satisfiable

end Regex

end JsonRules.Pattern.Linear
