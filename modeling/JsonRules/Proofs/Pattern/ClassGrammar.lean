import JsonRules.Pattern.Backtrack.Reader
import JsonRules.Proofs.Pattern.ClassText
import JsonRules.Proofs.Pattern.Reading
import Mathlib.Data.List.Permutation

/-!
# Classes mean what their grammar says

The ranges of a class are joined atom by atom, and not member by member as the grammar has it. The
two agree unless a union is followed by atoms with which its `-` or its second atom makes a range.
Where they agree, a class is refused for a range that ends before it begins and for nothing else,
and its text is read as the characters that its members name or, if it is negated, as all others.
-/

namespace JsonRules.Pattern

open Linear
open Unicode (CodeSet)

section Atoms

/-- The atom is no property, or one that is written to its end. -/
def ClassAtom.IsWritten (a : ClassAtom) : Prop := (ClassItem.ofAtom a).IsWritten

theorem PropertyReads.isPropertyText {c : Char} {cs text rest : List Char}
    (h : PropertyReads c cs text rest) (isProperty : c = 'p' ∨ c = 'P') : IsPropertyText text := by
  obtain ⟨negated, rfl⟩ : ∃ negated, c = propertyLetter negated := by
    rcases isProperty with rfl | rfl
    · exact ⟨false, rfl⟩
    · exact ⟨true, rfl⟩
  cases h with
  | braced closed => exact .braced negated closed
  | short plain => exact .short negated plain

/-- Only a property is an atom whose text is kept, and it is kept to its end. -/
theorem AtomReads.isWritten {c : Char} {cs rest : List Char} {a : ClassAtom}
    (h : AtomReads c cs a rest) : a.IsWritten := by
  cases h with
  | property isProperty read => exact read.isPropertyText isProperty
  | _ => trivial

theorem isWritten_of_classAtoms {cs rest : List Char} {atoms : List ClassAtom}
    (h : classAtoms cs = .ok (atoms, rest)) : ∀ a ∈ atoms, a.IsWritten := by
  rw [classAtoms_eq_ok] at h
  induction h with
  | close => exact List.forall_mem_nil _
  | cons _ first _ ih => exact List.forall_mem_cons.2 ⟨first.isWritten, ih⟩

theorem isDigit_of_isAlpha {c : Char} (h : c.isAlpha = true) : c.isDigit = false := by
  rw [Bool.eq_false_iff]
  intro hdigit
  have hdigit := toNat_of_isDigit hdigit
  have hletter : c.isUpper = true ∨ c.isLower = true := Bool.or_eq_true_iff.1 h
  have hlow : 65 ≤ c.toNat := by
    rcases hletter with hupper | hlower
    · exact UInt32.le_iff_toNat_le.1 (of_decide_eq_true hupper).1
    · have hfirst : 'a'.val ≤ c.val := of_decide_eq_true (Bool.and_eq_true_iff.1 hlower).1
      exact Nat.le_trans (by decide) (UInt32.le_iff_toNat_le.1 hfirst)
  omega

theorem ofLetter?_plain {c : Char} (h : c ∉ escapeLetters) : NamedSet.ofLetter? c = none := by
  unfold NamedSet.ofLetter?
  split <;> first | rfl | exact absurd (by decide) h

/-- The escape of a letter without a meaning is read as the letter. -/
theorem codeReads_letter {c : Char} (isAlpha : c.isAlpha = true) (plain : c ∉ escapeLetters)
    (after : List Char) : CodeReads c after c.toNat after := by
  have hcontrol : controlEscape? c = none := by
    unfold controlEscape?
    split <;> first | rfl | exact absurd (by decide) plain
  have hne : ∀ x ∈ escapeLetters, c ≠ x := fun x hx heq => plain (heq ▸ hx)
  exact .identity hcontrol ⟨hne 'c' (by decide), hne 'x' (by decide), hne 'u' (by decide)⟩
    (isDigit_of_isAlpha isAlpha)

theorem atomReads_letter {c : Char} (isAlpha : c.isAlpha = true) (plain : c ∉ escapeLetters)
    (after : List Char) : AtomReads '\\' (c :: after) (.code c.toNat) after := by
  have hne : ∀ x ∈ escapeLetters, c ≠ x := fun x hx heq => plain (heq ▸ hx)
  exact .code (ofLetter?_plain plain) (hne 'b' (by decide))
    (not_or.2 ⟨hne 'p' (by decide), hne 'P' (by decide)⟩) (codeReads_letter isAlpha plain after)

/-- What joining the atoms of a class leaves of them. -/
theorem isWritten_of_ofAtoms {atoms : List ClassAtom} {items : List ClassItem}
    (hatoms : ∀ a ∈ atoms, a.IsWritten) (h : ClassItem.ofAtoms atoms = .ok items) :
    ∀ i ∈ items, i.IsWritten := by
  intro i hi
  cases joinedFrom_of_mem h hi with
  | atom mem => exact hatoms _ mem
  | range => trivial

/-- A text that names a code point is read as this code point. -/
theorem NamesCode.atomText {cs after : List Char} {code : Nat} (h : NamesCode cs code after) :
    AtomText cs [.code code] after := by
  cases h with
  | code ends => exact .code ends
  | letter isAlpha plain =>
    exact classAtoms_cons (by decide) (classAtom_eq_ok.2 (atomReads_letter isAlpha plain after))
  | backslash noLetter =>
    exact classAtoms_cons (by decide)
      (classAtom_eq_ok.2 (.code rfl (by decide) (by decide) (.backslash noLetter)))

end Atoms

section Parts

def ClassPart.items : ClassPart → List ClassItem
  | one a => [.ofAtom a]
  | range lo hi => [.range lo hi]
  | union a b => [.ofAtom a, .dash, .ofAtom b]

/-- The items of members, unless one of these is a range that ends before it begins. -/
def itemsOf (parts : List ClassPart) : Except PatternError (List ClassItem) :=
  if parts.any ClassPart.isReversed then .error .classRange else .ok (parts.flatMap ClassPart.items)

theorem itemsOf_cons {p : ClassPart} (hp : p.isReversed = false) (parts : List ClassPart) :
    itemsOf (p :: parts) = (itemsOf parts).map (p.items ++ ·) := by
  unfold itemsOf
  rw [List.any_cons, hp, Bool.false_or, List.flatMap_cons]
  split <;> rfl

/-- An atom that begins no range is an item of its own. -/
theorem ofAtoms_single {a : ClassAtom} {atoms : List ClassAtom}
    (h : startsRange (a :: atoms) = false) :
    ClassItem.ofAtoms (a :: atoms) = (ClassItem.ofAtoms atoms).map (ClassItem.ofAtom a :: ·) := by
  by_cases hpair : ∃ b rest, atoms = .dash :: b :: rest
  · obtain ⟨b, rest, rfl⟩ := hpair
    rw [ClassItem.ofAtoms]
    split
    · next hlo hhi => simp [startsRange, hlo, hhi] at h
    · rfl
  · exact ofAtoms_cons fun b rest heq => hpair ⟨b, rest, heq⟩

/-- Joined one by one, the atoms of a class make its members, unless a union runs on. -/
theorem ofAtoms_eq_itemsOf {atoms : List ClassAtom} (h : runsOn atoms = false) :
    ClassItem.ofAtoms atoms = itemsOf (ClassPart.read atoms) := by
  fun_induction ClassPart.read atoms with
  | case1 => rfl
  | case2 a b rest ih =>
    rw [runsOn, Bool.or_eq_false_iff] at h
    obtain ⟨hunion, hrest⟩ := h
    unfold ClassPart.ofPair
    split
    · next lo hi hlo hhi =>
      rw [ClassItem.ofAtoms, hlo, hhi, ih hrest]
      by_cases hlt : hi < lo
      · simp [hlt, itemsOf, ClassPart.isReversed]
      · have hordered : (ClassPart.range lo hi).isReversed = false := decide_eq_false hlt
        rw [itemsOf_cons hordered]
        exact if_neg hlt
    · next hnot =>
      have hstart : startsRange (a :: .dash :: b :: rest) = false := by
        unfold startsRange
        rw [Bool.and_eq_false_iff, Option.isSome_eq_false_iff, Option.isSome_eq_false_iff,
          Option.isNone_iff_eq_none, Option.isNone_iff_eq_none]
        cases hlo : a.endpoint? with
        | none => exact .inl rfl
        | some lo =>
          cases hhi : b.endpoint? with
          | none => exact .inr rfl
          | some hi => exact absurd hhi (hnot lo hi hlo)
      rw [hstart, Bool.not_false, Bool.true_and, Bool.or_eq_false_iff] at hunion
      -- neither the dash nor the second atom begins a range, so each is an item of its own
      rw [itemsOf_cons rfl, ofAtoms_single hstart, ofAtoms_single hunion.1,
        ofAtoms_single hunion.2, ih hrest]
      cases itemsOf (ClassPart.read rest) <;> rfl
  | case3 a rest hne ih =>
    have hstart : startsRange (a :: rest) = false := by
      unfold startsRange
      split
      · next heq => cases heq; exact absurd rfl (hne _ _)
      · rfl
    rw [runsOn] at h
    · rw [itemsOf_cons rfl, ofAtoms_single hstart, ih h]
      rfl
    · exact hne

theorem names_ofAtom (a : ClassAtom) (x : Char) : (ClassItem.ofAtom a).names x = a.names x := by
  cases a with
  | code c =>
    rw [ClassItem.ofAtom, ClassItem.names, ClassAtom.names, decide_eq_decide]
    omega
  | _ => rfl

theorem names_items (p : ClassPart) (x : Char) :
    p.items.any (ClassItem.names x) = p.names x := by
  cases p with
  | one a => rw [ClassPart.items, List.any_cons, List.any_nil, Bool.or_false, names_ofAtom]; rfl
  | range lo hi => rw [ClassPart.items, List.any_cons, List.any_nil, Bool.or_false]; rfl
  | union a b =>
    simp only [ClassPart.items, List.any_cons, List.any_nil, Bool.or_false, names_ofAtom]
    rw [ClassPart.names, Bool.or_assoc]
    rfl

theorem isNone_sets?_ofAtom (a : ClassAtom) : (ClassItem.ofAtom a).sets?.isNone = a.isUnknown := by
  cases a with
  | property text =>
    rw [ClassItem.ofAtom, ClassItem.sets?, ClassAtom.isUnknown]
    cases propertyCodes? text <;> rfl
  | _ => rfl

theorem isUnknown_items (p : ClassPart) :
    p.items.any (fun i => i.sets?.isNone) = p.isUnknown := by
  cases p with
  | one a =>
    rw [ClassPart.items, List.any_cons, List.any_nil, Bool.or_false, isNone_sets?_ofAtom]
    rfl
  | range lo hi => rfl
  | union a b =>
    simp only [ClassPart.items, List.any_cons, List.any_nil, Bool.or_false, isNone_sets?_ofAtom]
    rfl

end Parts

section Denotation

/-- Both matchers read the text as a set of characters, whatever follows it, or refuse it. -/
def ReadAsSet (text : List Char) (codes? : Option CodeSet) : Prop :=
  ∃ cs levels, text = '[' :: cs ∧ ∀ after,
    Linear.Lexeme.next? '[' (cs ++ after) =
      codes?.map (fun codes => (Linear.Lexeme.set codes levels, after)) ∧
    Backtrack.Lexeme.next? '[' (cs ++ after) =
      codes?.map fun codes => (Backtrack.Lexeme.set codes, after)

theorem readAsSet_classText {items : List ClassItem} (hitems : ∀ i ∈ items, i.IsWritten)
    (negated : Bool) : ReadAsSet (classText negated items)
      ((setsOf? items).map fun sets => classChars negated sets.flatten) := by
  obtain ⟨cs, htext, hread⟩ := class?_classText hitems negated
  refine ⟨cs, ((setsOf? items).map fun sets => if max 1 sets.length = 1 then 1 else 2).getD 0,
    htext, fun after => ?_⟩
  rw [Linear.Lexeme.next?, Backtrack.Lexeme.next?, hread]
  cases setsOf? items <;> exact ⟨rfl, rfl⟩

/-- Unless a union runs on, a class whose atoms can be read is refused exactly for a range that ends
before it begins. Any other one is read as a set, which both matchers refuse exactly if it has a
property that they do not know. The set has a character exactly if a member names it, or if none
does in a negated class; only if the members of a negated class name both neighbours of the
surrogates, nothing is said about these two. -/
theorem classToken_denotes {negated : Bool} {body rest : List Char} {atoms : List ClassAtom}
    (hcaret : negated = false → body.head? ≠ some '^')
    (hatoms : classAtoms body = .ok (atoms, rest)) (hunions : runsOn atoms = false) :
    (classToken ((if negated then ['^'] else []) ++ body) = .error .classRange ↔
      (ClassPart.read atoms).any ClassPart.isReversed = true) ∧
    ((ClassPart.read atoms).any ClassPart.isReversed = false → ∃ token codes?,
      classToken ((if negated then ['^'] else []) ++ body) = .ok (token, rest) ∧
      (∀ dialect, ReadAsSet (token.text dialect) codes?) ∧
      (codes? = none ↔ (ClassPart.read atoms).any ClassPart.isUnknown = true) ∧
      ∀ codes, codes? = some codes → ∀ x,
        ¬ (negated = true ∧ Borders x.toNat ∧
          (ClassPart.read atoms).any (ClassPart.names '\uD7FF') = true ∧
          (ClassPart.read atoms).any (ClassPart.names '\uE000') = true) →
        codes.has x = ((ClassPart.read atoms).any (ClassPart.names x) != negated)) ∧
    ∀ cs code after, NamesCode cs code after → AtomText cs [.code code] after := by
  have htoken := classToken_eq hcaret hatoms
  have hitems := ofAtoms_eq_itemsOf hunions
  rw [hitems, itemsOf] at htoken
  refine ⟨?_, fun hordered => ?_, fun cs code after h => h.atomText⟩
  · rw [htoken]
    split
    · next hreversed => exact iff_of_true rfl hreversed
    · next hordered => exact iff_of_false (fun h => by cases h) hordered
  · rw [itemsOf, hordered] at hitems
    rw [hordered] at htoken
    have hwritten := isWritten_of_ofAtoms (isWritten_of_classAtoms hatoms) hitems
    refine ⟨_, _, htoken, fun dialect => readAsSet_classText hwritten negated, ?_, ?_⟩
    · rw [Option.map_eq_none_iff, ← Option.isNone_iff_eq_none, isNone_setsOf?, List.any_flatMap]
      simp only [isUnknown_items]
    · intro codes hcodes x hborder
      obtain ⟨sets, hsets, rfl⟩ := Option.map_eq_some_iff.1 hcodes
      have hnames : ∀ y : Char, CodeSet.has sets.flatten y =
          (ClassPart.read atoms).any (ClassPart.names y) := by
        intro y
        rw [has_setsOf? hsets, List.any_flatMap]
        simp only [names_items]
      have hcross : ¬ (negated = true ∧ Crosses sets.flatten ∧ Borders x.toNat) := by
        rintro ⟨hnegated, ⟨hlow, hhigh⟩, hx⟩
        rw [← hnames, ← hnames] at hborder
        exact hborder ⟨hnegated, hx, hlow, hhigh⟩
      rw [Bool.eq_iff_iff, has_classChars_of_not_crosses hcross, hnames]

/-- The class `[^\d-x_b-f]` has a union, a code point and a range. -/
theorem classToken_denotes_union : ∃ token codes,
    classToken "^\\d-x_b-f]".toList = .ok (token, []) ∧
      (∀ dialect, ReadAsSet (token.text dialect) (some codes)) ∧
      codes.has 'a' = true ∧ codes.has 'c' = false := by
  have hatoms : classAtoms "\\d-x_b-f]".toList = .ok ([.set NamedSet.digit.codes, .dash,
      .code 0x78, .code 0x5F, .code 0x62, .dash, .code 0x66], []) := by
    cbv
  have hcaret : true = false → "\\d-x_b-f]".toList.head? ≠ some '^' := by decide
  obtain ⟨token, codes?, htoken, hread, hknown, hnames⟩ :=
    (classToken_denotes hcaret hatoms (by decide)).2.1 (by decide)
  -- the class names no property
  have hsome : codes? ≠ none := fun hnone => absurd (hknown.1 hnone) (by decide)
  obtain ⟨codes, rfl⟩ := Option.ne_none_iff_exists'.1 hsome
  refine ⟨token, codes, htoken, hread, ?_, ?_⟩
  · rw [hnames codes rfl 'a' (by simp [Borders])]
    decide
  · rw [hnames codes rfl 'c' (by simp [Borders])]
    decide

/-- In `[\d-a-z]` the second atom of the union is taken for the begin of a range, and `[\d-z-a]` is
refused for such a range, though neither class has a range as a member. -/
theorem classToken_runsOn :
    (∃ token atoms codes, classToken "\\d-a-z]".toList = .ok (token, []) ∧
      classAtoms "\\d-a-z]".toList = .ok (atoms, []) ∧
      (∀ dialect, ReadAsSet (token.text dialect) (some codes)) ∧ codes.has 'b' = true ∧
      (ClassPart.read atoms).any (ClassPart.names 'b') = false) ∧
    ∃ atoms, classToken "\\d-z-a]".toList = .error .classRange ∧
      classAtoms "\\d-z-a]".toList = .ok (atoms, []) ∧
      (ClassPart.read atoms).any ClassPart.isReversed = false := by
  constructor
  · have htoken : classToken "\\d-a-z]".toList = .ok (.charClass false
        [.set NamedSet.digit.codes, .dash, .range 0x61 0x7A], []) := by cbv
    have hwritten : ∀ i ∈ [ClassItem.set NamedSet.digit.codes, .dash, .range 0x61 0x7A],
        i.IsWritten := by
      simp [ClassItem.IsWritten]
    have hplain : ∀ ranges, ¬ (false = true ∧ Crosses ranges ∧ Borders 'b'.toNat) := by
      rintro ranges ⟨hnegated, -⟩
      cases hnegated
    exact ⟨_, _, _, htoken, by cbv, fun dialect => readAsSet_classText hwritten false,
      (has_classChars_of_not_crosses (hplain _)).2 (by decide), by decide⟩
  · exact ⟨_, by cbv, by cbv, by decide⟩

end Denotation

end JsonRules.Pattern
