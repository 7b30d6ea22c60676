import JsonRules.Proofs.Pattern.ClassGrammar
import JsonRules.Proofs.Unicode.Complement

/-!
# What is written for ranges and for sets

The text of ranges in a class is read as their characters, whatever surrogates they have. There are
two ways to write the complement of a named set: outside of a class as a negated class of the set,
and in a class as the ranges of the complement. Both are read as the same set.
-/

namespace JsonRules.Pattern

open Linear
open Unicode (CodeRange CodeSet maxCode)

section Ranges

variable {ranges : CodeSet} {code : Nat}

theorem isScalar_of_contains {s : CodeSet} (h : ∀ r ∈ s, OneSided r)
    (hcode : s.contains code = true) : IsScalar code := by
  obtain ⟨r, hr, hlo, hhi⟩ := CodeSet.contains_iff.1 hcode
  obtain ⟨-, hbelow | ⟨habove, hmax⟩⟩ := h r hr
  · exact .inl (Nat.lt_of_le_of_lt hhi hbelow)
  · exact .inr ⟨Nat.lt_of_lt_of_le habove hlo, Nat.le_trans hhi hmax⟩

/-- The ranges that a range is written as have its characters and no surrogates. -/
theorem contains_scalarRanges_iff {lo hi : Nat} (hmax : hi ≤ maxCode) :
    (scalarRanges lo hi).contains code = true ↔ (lo ≤ code ∧ code ≤ hi) ∧ IsScalar code := by
  constructor
  · intro h
    have hcode := isScalar_of_contains (oneSided_scalarRanges hmax) h
    exact ⟨(contains_scalarRanges hcode).1 h, hcode⟩
  · rintro ⟨h, hcode⟩
    exact (contains_scalarRanges hcode).2 h

theorem contains_ranges_set (hmax : ∀ r ∈ ranges, r.hi ≤ maxCode) :
    (ClassItem.ranges (.set ranges)).contains code = true ↔
      ranges.contains code = true ∧ IsScalar code := by
  simp only [ClassItem.ranges, CodeSet.contains_iff, List.mem_flatMap]
  constructor
  · rintro ⟨r, ⟨x, hx, hr⟩, hcode⟩
    have hin := CodeSet.contains_iff.2 ⟨r, hr, hcode⟩
    rw [contains_scalarRanges_iff (hmax x hx)] at hin
    exact ⟨⟨x, hx, hin.1⟩, hin.2⟩
  · rintro ⟨⟨x, hx, hcode⟩, hscalar⟩
    have hin := (contains_scalarRanges_iff (hmax x hx)).2 ⟨hcode, hscalar⟩
    obtain ⟨r, hr, hcode⟩ := CodeSet.contains_iff.1 hin
    exact ⟨r, ⟨x, hx, hr⟩, hcode⟩

theorem rangesText_singleton (lo hi : Nat) : rangesText [⟨lo, hi⟩] = rangeText lo hi :=
  List.flatMap_singleton _ _

/-- Nothing is written for ranges exactly if they have no characters. -/
theorem rangesText_eq_nil (hmax : ∀ r ∈ ranges, r.hi ≤ maxCode) :
    rangesText ranges = [] ↔ ∀ code, ranges.contains code = true → ¬ IsScalar code := by
  have hempty : (ClassItem.ranges (.set ranges)).flatMap memberText = [] ↔
      ClassItem.ranges (.set ranges) = [] := by
    rw [List.flatMap_eq_nil_iff, List.eq_nil_iff_forall_not_mem]
    exact forall₂_congr fun r _ => iff_of_false (memberText_ne_nil r) id
  rw [rangesText_eq]
  refine hempty.trans ⟨fun h code hcode hscalar => ?_, fun h => ?_⟩
  · have hin := (contains_ranges_set hmax).2 ⟨hcode, hscalar⟩
    rw [h] at hin
    exact CodeSet.not_contains_nil hin
  · rw [List.eq_nil_iff_forall_not_mem]
    intro r hr
    obtain ⟨x, -, hx⟩ := List.mem_flatMap.1 hr
    have hin : (ClassItem.ranges (.set ranges)).contains r.lo = true :=
      CodeSet.contains_iff.2 ⟨r, hr, Nat.le_refl _, le_of_mem_scalarRanges hx⟩
    obtain ⟨hcode, hscalar⟩ := (contains_ranges_set hmax).1 hin
    exact h r.lo hcode hscalar

end Ranges

section Classes

theorem sets?_eq_ranges {item : ClassItem} (h : item.IsExplicit) :
    item.sets?.map List.flatten = some item.ranges := by
  have hranges : ∀ ranges : CodeSet, (ranges.map fun r => [r]).flatten = ranges := by
    intro ranges
    rw [← List.flatMap_def, List.flatMap_singleton']
  cases item with
  | property text => cases h
  | _ => exact congrArg some (hranges _)

/-- The sets of members that are no properties are their ranges. -/
theorem setsOf?_eq_ranges {items : List ClassItem} (h : ∀ i ∈ items, i.IsExplicit) :
    (setsOf? items).map List.flatten = some (items.flatMap ClassItem.ranges) := by
  induction items with
  | nil => rfl
  | cons item items ih =>
    obtain ⟨hitem, hitems⟩ := List.forall_mem_cons.1 h
    obtain ⟨sets, hsets, hranges⟩ := Option.map_eq_some_iff.1 (sets?_eq_ranges hitem)
    obtain ⟨more, hmore, hrest⟩ := Option.map_eq_some_iff.1 (ih hitems)
    rw [setsOf?, hsets, hmore, List.flatMap_cons, ← hranges, ← hrest]
    simp

/-- A class of members that are no properties is read as the set of their ranges. -/
theorem readAsSet_explicit {items : List ClassItem} (h : ∀ i ∈ items, i.IsExplicit)
    (negated : Bool) : ReadAsSet (classText negated items)
      (some (classChars negated (items.flatMap ClassItem.ranges))) := by
  have hwritten : ∀ i ∈ items, i.IsWritten := by
    intro i hi
    have hi := h i hi
    cases i with
    | property text => cases hi
    | _ => trivial
  obtain ⟨sets, hsets, hranges⟩ := Option.map_eq_some_iff.1 (setsOf?_eq_ranges h)
  have hread := readAsSet_classText hwritten negated
  rw [hsets, Option.map_some, hranges] at hread
  exact hread

theorem contains_classChars (ranges : CodeSet) (code : Nat) :
    (classChars false ranges).contains code = ranges.contains code :=
  (CodeSet.ofRanges_spec ranges).2 code

theorem setText_eq_classText {ranges : CodeSet} (hne : rangesText ranges ≠ []) (negated : Bool) :
    setText negated ranges = classText negated [.set ranges] := by
  simp [classText, setText, ClassItem.text, hne]

/-- Where something is written for ranges, it is read as their characters. -/
theorem readAsSet_setText {ranges : CodeSet} (hmax : ∀ r ∈ ranges, r.hi ≤ maxCode)
    (hne : rangesText ranges ≠ []) : ∃ codes, ReadAsSet (setText false ranges) (some codes) ∧
      ∀ code, codes.contains code = true ↔ ranges.contains code = true ∧ IsScalar code := by
  have hread := readAsSet_explicit (List.forall_mem_singleton.2 trivial :
    ∀ i ∈ [ClassItem.set ranges], i.IsExplicit) false
  rw [← setText_eq_classText hne, List.flatMap_singleton] at hread
  refine ⟨_, hread, fun code => ?_⟩
  rw [contains_classChars, contains_ranges_set hmax]

/-- A class that nothing is left of has no characters or, if it is negated, all. -/
theorem readAsSet_empty {items : List ClassItem} (h : items.flatMap ClassItem.text = [])
    (negated : Bool) : ∃ codes, ReadAsSet (classText negated items) (some codes) ∧
      ∀ x : Char, codes.has x = negated := by
  have hnone : classText negated items = classText negated [] := by rw [classText, h]; rfl
  have hcross : ∀ x : Char, ¬ (negated = true ∧ Crosses [] ∧ Borders x.toNat) := by
    rintro x ⟨-, ⟨hlow, -⟩, -⟩
    exact CodeSet.not_contains_nil hlow
  have hread := readAsSet_explicit (List.forall_mem_nil _) negated
  rw [← hnone, List.flatMap_nil] at hread
  refine ⟨_, hread, fun x => ?_⟩
  rw [Bool.eq_iff_iff, has_classChars_of_not_crosses (hcross x)]
  cases negated <;> rfl

end Classes

section Escapes

/-- A class of the sets that escapes stand for, or of their complements. -/
def escapesClass (negated : Bool) (escapes : List (NamedSet × Bool)) : CharClass where
  negated := negated
  firstDash := false
  members := escapes.map fun e => .set e.1 e.2
  lastDash := false
  caret := by
    cases escapes with
    | nil => exact .inr (.inr rfl)
    | cons e escapes => exact .inr (.inr rfl)

def escapesName (escapes : List (NamedSet × Bool)) (x : Char) : Bool :=
  escapes.any fun e => e.1.codes.has x != e.2

def escapesText (escapes : List (NamedSet × Bool)) : List Char :=
  escapes.flatMap fun e => ['\\', e.1.letter e.2]

variable (negated : Bool) (escapes : List (NamedSet × Bool)) (rest : List Char)

theorem escapesClass_text : (escapesClass negated escapes).text ++ rest =
    (if negated then ['^'] else []) ++ escapesText escapes ++ ']' :: rest := by
  have htext : (escapesClass negated escapes).members.flatMap ClassMember.text =
      escapesText escapes := List.flatMap_map _ _ _
  rw [CharClass.text, htext]
  show (if negated then ['^'] else []) ++ [] ++ escapesText escapes ++ [']'] ++ rest = _
  simp

theorem escapesClass_delimited : (escapesClass negated escapes).Delimited rest := by
  have hmembers : ∀ more, MembersDelimited (escapes.map fun e => .set e.1 e.2) more := by
    induction escapes with
    | nil => exact fun _ => trivial
    | cons e escapes ih => exact fun more => ⟨trivial, ih more⟩
  exact hmembers _

theorem names_escapesClass (x : Char) :
    (escapesClass negated escapes).names x = escapesName escapes x := by
  rw [CharClass.names, escapesName, escapesClass, List.any_map]
  rfl

/-- A class of escapes is read as the union of their sets or, if it is negated, as all other
characters. Only if the escapes of a negated class name both neighbours of the surrogates, nothing
is said about these two. -/
theorem readAsSet_escapes : ∃ token codes,
    Token.next '[' ((if negated then ['^'] else []) ++ escapesText escapes ++ ']' :: rest) =
      .ok (token, rest) ∧
    (∀ dialect, ReadAsSet (token.text dialect) (some codes)) ∧
    ∀ x : Char, ¬ (negated = true ∧ Borders x.toNat ∧ escapesName escapes '\uD7FF' = true ∧
      escapesName escapes '\uE000' = true) → codes.has x = (escapesName escapes x != negated) := by
  have htoken := (escapesClass negated escapes).classToken_text
    (escapesClass_delimited negated escapes rest)
  rw [escapesClass_text] at htoken
  have hread := readAsSet_explicit (escapesClass negated escapes).isExplicit_items negated
  have hnames : ∀ y : Char,
      CodeSet.has ((escapesClass negated escapes).items.flatMap ClassItem.ranges) y =
        escapesName escapes y := fun y =>
    ((escapesClass negated escapes).has_ranges y).trans (names_escapesClass negated escapes y)
  refine ⟨_, _, htoken, fun dialect => hread, fun x hborder => ?_⟩
  have hcross : ¬ (negated = true ∧
      Crosses ((escapesClass negated escapes).items.flatMap ClassItem.ranges) ∧
        Borders x.toNat) := by
    rintro ⟨hnegated, ⟨hlow, hhigh⟩, hx⟩
    exact hborder ⟨hnegated, hx, (hnames '\uD7FF').symm.trans hlow,
      (hnames '\uE000').symm.trans hhigh⟩
  rw [Bool.eq_iff_iff, has_classChars_of_not_crosses hcross, hnames]

/-- Outside of a class an escape is read as the set that it stands for, or as its complement. -/
theorem readAsSet_escape (named : NamedSet) (complement : Bool) : ∃ token codes,
    Token.next '\\' (named.letter complement :: rest) = .ok (token, rest) ∧
    (∀ dialect, ReadAsSet (token.text dialect) (some codes)) ∧
    ∀ x : Char, codes.has x = (named.codes.has x != complement) := by
  have htoken : Token.next '\\' (named.letter complement :: rest) =
      .ok (.set named complement, rest) := by
    show escape (named.letter complement :: rest) = _
    simp only [escape, ofLetter?_letter]
  have hne : rangesText named.codes ≠ [] := by cases named <;> decide
  have hread := readAsSet_explicit (List.forall_mem_singleton.2 trivial :
    ∀ i ∈ [ClassItem.set named.codes], i.IsExplicit) complement
  rw [← setText_eq_classText hne, List.flatMap_singleton] at hread
  refine ⟨_, _, htoken, fun dialect => hread, fun x => ?_⟩
  have hchars := (CharSource.set named complement).has_chars x
  exact Bool.eq_iff_iff.2 (hchars.trans (or_iff_left fun h => h.1))

end Escapes

/-- What is written for ranges and for complements is exact. A range is read as its characters, of
which surrogates are none, and so are ranges that are written one after the other; nothing is
written exactly where there are no characters. The complement of a normal set is normal and has
exactly the other code points, with all its bounds in 32 bits, and its own complement is the set
again. So a class of escapes is read as the union of their sets, and an escape is read as the same
set alone in a class and outside of one; and a class that nothing is left of is read as the empty
set or, if it is negated, as that of all characters. -/
theorem emission_exact :
    (∀ lo hi, lo ≤ hi → hi ≤ maxCode →
      (rangeText lo hi = [] ↔ ∀ code, lo ≤ code ∧ code ≤ hi → ¬ IsScalar code) ∧
      (rangeText lo hi ≠ [] → ∃ codes, ReadAsSet ('[' :: rangeText lo hi ++ [']']) (some codes) ∧
        ∀ code, codes.contains code = true ↔ (lo ≤ code ∧ code ≤ hi) ∧ IsScalar code)) ∧
    (∀ ranges : CodeSet, (∀ r ∈ ranges, r.lo ≤ r.hi ∧ r.hi ≤ maxCode) →
      rangesText ranges ≠ [] → ∃ codes,
        ReadAsSet ('[' :: rangesText ranges ++ [']']) (some codes) ∧
        ∀ code, codes.contains code = true ↔ ranges.contains code = true ∧ IsScalar code) ∧
    (∀ s : CodeSet, s.Normal →
      CodeSet.complementFrom? 0 s = some s.complement ∧ s.complement.Normal ∧
      (∀ code, s.complement.contains code = true ↔ code ≤ maxCode ∧ ¬ s.contains code = true) ∧
      ∀ code, s.complement.complement.contains code = s.contains code) ∧
    (∀ (negated : Bool) (escapes : List (NamedSet × Bool)) (rest : List Char), ∃ token codes,
      Token.next '[' ((if negated then ['^'] else []) ++ escapesText escapes ++ ']' :: rest) =
        .ok (token, rest) ∧
      (∀ dialect, ReadAsSet (token.text dialect) (some codes)) ∧
      ∀ x : Char, ¬ (negated = true ∧ Borders x.toNat ∧ escapesName escapes '\uD7FF' = true ∧
        escapesName escapes '\uE000' = true) →
          codes.has x = (escapesName escapes x != negated)) ∧
    (∀ (named : NamedSet) (complement : Bool) (rest : List Char),
      ∃ inside outside codes others,
        Token.next '[' ('\\' :: named.letter complement :: ']' :: rest) = .ok (inside, rest) ∧
        Token.next '\\' (named.letter complement :: rest) = .ok (outside, rest) ∧
        (∀ dialect, ReadAsSet (inside.text dialect) (some codes) ∧
          ReadAsSet (outside.text dialect) (some others)) ∧
        ∀ x : Char, codes.has x = others.has x) ∧
    ∀ negated items, items.flatMap ClassItem.text = [] → ∃ codes,
      ReadAsSet (classText negated items) (some codes) ∧ ∀ x : Char, codes.has x = negated := by
  refine ⟨fun lo hi _ hmax => ?_, fun ranges hranges hne => ?_, fun s hs => ?_, readAsSet_escapes,
    fun named complement rest => ?_, fun negated items h => readAsSet_empty h negated⟩
  · have hmax : ∀ r ∈ ([⟨lo, hi⟩] : CodeSet), r.hi ≤ maxCode := List.forall_mem_singleton.2 hmax
    have hnil := rangesText_eq_nil hmax
    have hread := readAsSet_setText hmax
    simp only [setText, rangesText_singleton, CodeSet.contains_singleton, CodeRange.has_mk]
      at hnil hread
    exact ⟨hnil, hread⟩
  · exact readAsSet_setText (fun r hr => (hranges r hr).2) hne
  · exact ⟨CodeSet.complementFrom?_eq hs, CodeSet.normalFrom_complementFrom hs,
      fun code => CodeSet.contains_complement_iff hs,
      CodeSet.contains_complement_complement hs⟩
  · obtain ⟨inside, codes, hinside, hread, hcodes⟩ :=
      readAsSet_escapes false [(named, complement)] rest
    obtain ⟨outside, others, houtside, hother, hothers⟩ := readAsSet_escape rest named complement
    refine ⟨inside, outside, codes, others, hinside, houtside,
      fun dialect => ⟨hread dialect, hother dialect⟩, fun x => ?_⟩
    have hplain : ¬ (false = true ∧ Borders x.toNat ∧
        escapesName [(named, complement)] '\uD7FF' = true ∧
          escapesName [(named, complement)] '\uE000' = true) := by
      rintro ⟨⟨⟩, -⟩
    rw [hcodes x hplain, hothers, Bool.bne_false, escapesName, List.any_cons, List.any_nil,
      Bool.or_false]

/-- A range around the surrogates, the complement of the word characters, and a negated class of a
lone surrogate. -/
theorem emission_exact_surrogates :
    (∃ codes, ReadAsSet ('[' :: rangeText 0xD7FE 0xE000 ++ [']']) (some codes) ∧
      codes.contains 0xD7FF = true ∧ ¬ codes.contains 0xD800 = true) ∧
    NamedSet.word.codes.complement.Normal ∧
    ∃ codes, ReadAsSet (classText true [.range 0xD800 0xD800]) (some codes) ∧
      codes.has '\uD7FF' = true := by
  obtain ⟨hrange, -, hcomplement, -, -, hempty⟩ := emission_exact
  obtain ⟨codes, hread, hcodes⟩ := (hrange 0xD7FE 0xE000 (by decide) (by decide)).2 (by decide)
  obtain ⟨all, hall, hhas⟩ := hempty true [.range 0xD800 0xD800] (by decide)
  refine ⟨⟨codes, hread, (hcodes _).2 ⟨by decide, .inl (by decide)⟩, fun h => ?_⟩,
    (hcomplement _ (normal_codes .word)).2.1, all, hall, hhas _⟩
  exact absurd ((hcodes _).1 h).2 (by simp [IsScalar])

end JsonRules.Pattern
