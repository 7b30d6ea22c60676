import JsonRules.Proofs.Pattern.Linear.Lexemes
import Mathlib.Algebra.Group.Nat.Even

/-!
# The sets of a pattern

The set that a part of a pattern is read as has the characters that the part admits. The exception
is a negated class that names both neighbours of the surrogates: it takes these two as well.
-/

namespace JsonRules.Pattern

open Linear
open Text (hexDigit?)
open Unicode (CodeRange CodeSet maxCode)

section Codes

theorem hexDigit?_lt {c : Char} {n : Nat} (h : hexDigit? c = some n) : n < 16 := by
  unfold hexDigit? at h
  simp only [Char.le_def, UInt32.le_iff_toNat_le] at h
  split at h
  · next hrange =>
    cases h
    have hle : c.toNat ≤ 57 := hrange.2
    omega
  · split at h
    · next hrange =>
      cases h
      have hle : c.toNat ≤ 102 := hrange.2
      omega
    · split at h
      · next hrange =>
        cases h
        have hle : c.toNat ≤ 70 := hrange.2
        omega
      · cases h

theorem hexFrom_lt (n : Nat) (digits : List HexDigit) :
    hexFrom n digits < (n + 1) * 16 ^ digits.length := by
  induction digits generalizing n with
  | nil => simp [hexFrom]
  | cons d digits ih =>
    have hdigit := hexDigit?_lt (hexDigit?_getD d)
    have hstep : n * 16 + (hexDigit? d.1).getD 0 + 1 ≤ (n + 1) * 16 := by omega
    calc hexFrom n (d :: digits)
        < (n * 16 + (hexDigit? d.1).getD 0 + 1) * 16 ^ digits.length := ih _
      _ ≤ (n + 1) * 16 * 16 ^ digits.length := Nat.mul_le_mul_right _ hstep
      _ = (n + 1) * 16 ^ (d :: digits).length := by
        rw [List.length_cons, Nat.pow_succ', Nat.mul_assoc]

theorem toNat_le_maxCode (c : Char) : c.toNat ≤ maxCode := by
  have hscalar := isScalar_toNat c
  simp only [IsScalar, maxCode] at *
  omega

theorem joinSurrogates_le {high low : Nat} (isHigh : isHighSurrogate high = true)
    (isLow : isLowSurrogate low = true) : joinSurrogates high low ≤ maxCode := by
  simp only [isHighSurrogate, isLowSurrogate, Bool.and_eq_true, decide_eq_true_iff] at *
  unfold joinSurrogates maxCode
  omega

/-- Four digits spell no code point above the largest one. -/
theorem hexValue_le {digits : List HexDigit} (hlen : digits.length ≤ 4) :
    hexValue digits ≤ maxCode := by
  have hlt := hexFrom_lt 0 digits
  have hpow : 16 ^ digits.length ≤ 16 ^ 4 := Nat.pow_le_pow_right (by decide) hlen
  unfold hexValue maxCode
  omega

/-- An escape stands for a code point. -/
theorem CodeEscape.code_le (e : CodeEscape) : e.code ≤ maxCode := by
  cases e with
  | control c code known =>
    have hlt : code < 32 := by
      simp only [controlLetters, List.mem_cons, Prod.mk.injEq, List.not_mem_nil, or_false] at known
      omega
    exact Nat.le_trans (Nat.le_of_lt hlt) (by decide)
  | null => exact Nat.zero_le _
  | letter c =>
    have hlt : c.toNat % 32 < 32 := Nat.mod_lt _ (by decide)
    exact Nat.le_trans (Nat.le_of_lt hlt) (by decide)
  | byte digits two => exact hexValue_le (by omega)
  | unit digits four => exact hexValue_le (by omega)
  | pair _ _ _ _ isHigh isLow => exact joinSurrogates_le isHigh isLow
  | braced digits _ _ bounded => exact bounded
  | identity c => exact toNat_le_maxCode c

theorem ClassCode.code_le (c : ClassCode) : c.code ≤ maxCode := by
  cases c with
  | raw c => exact toNat_le_maxCode c
  | escape e => exact e.code_le
  | backspace => decide

end Codes

section Ranges

theorem has_flatMap {α : Type} (items : List α) (f : α → CodeSet) (x : Char) :
    CodeSet.has (items.flatMap f) x = items.any fun a => (f a).has x := List.any_flatMap

theorem has_single (c x : Char) : (single c.toNat).has x = (x == c) := by
  rw [Bool.eq_iff_iff, CodeSet.has, single, CodeSet.contains_singleton, CodeRange.has_mk,
    beq_iff_eq, ← Char.toNat_inj]
  omega

/-- A class has the characters of its ranges or, if it is negated, all others; together with both
neighbours of the surrogates if these are in the ranges. -/
theorem has_classChars {ranges : CodeSet} (hsides : ∀ r ∈ ranges, OneSided r) (negated : Bool)
    (x : Char) : (classChars negated ranges).has x = true ↔
      (ranges.has x != negated) = true ∨
        (negated = true ∧ Crosses ranges ∧ Borders x.toNat) := by
  obtain ⟨hsep, hsame⟩ := CodeSet.ofRanges_spec ranges
  have hjoined : ∀ r ∈ CodeSet.ofRanges ranges, OneSided r :=
    CodeSet.forall_ofRanges ranges (fun _ _ => OneSided.merge) fun r hr _ => hsides r hr
  cases negated with
  | false => simp [classChars, CodeSet.has, hsame]
  | true =>
    simp only [classChars, if_true, CodeSet.has, contains_negate hjoined hsep (isScalar_toNat x),
      Crosses, hsame]
    simp

def ClassItem.IsBounded : ClassItem → Prop
  | range _ hi => hi ≤ maxCode
  | set codes => ∀ r ∈ codes, r.hi ≤ maxCode
  | _ => True

theorem ClassItem.oneSided_ranges {item : ClassItem} (h : item.IsBounded) :
    ∀ r ∈ item.ranges, OneSided r := by
  cases item with
  | range lo hi => exact oneSided_scalarRanges h
  | dash => exact List.forall_mem_singleton.2 ⟨Nat.le_refl _, .inl (by decide)⟩
  | set codes =>
    intro r hr
    obtain ⟨x, hx, hr⟩ := List.mem_flatMap.1 hr
    exact oneSided_scalarRanges (h x hx) r hr
  | property => exact List.forall_mem_nil _

theorem has_ranges_set (codes : CodeSet) (x : Char) :
    (ClassItem.ranges (.set codes)).has x = codes.has x := by
  have hrange : ∀ r : CodeRange, (scalarRanges r.lo r.hi).has x =
      (decide (r.lo ≤ x.toNat) && decide (x.toNat ≤ r.hi)) := by
    intro r
    rw [Bool.eq_iff_iff, CodeSet.has, contains_scalarRanges (isScalar_toNat x), Bool.and_eq_true,
      decide_eq_true_iff, decide_eq_true_iff]
  rw [ClassItem.ranges, has_flatMap, CodeSet.has, CodeSet.contains]
  simp only [hrange]

theorem normal_codes (named : NamedSet) : named.codes.Normal := by
  cases named <;> simp [NamedSet.codes, CodeSet.Normal, CodeSet.NormalFrom, maxCode]

theorem bounded_codes (named : NamedSet) (complement : Bool) :
    ∀ r ∈ (if complement then named.codes.complement else named.codes), r.hi ≤ maxCode := by
  cases named <;> cases complement <;> decide

end Ranges

namespace ClassMember

theorem isBounded_item (m : ClassMember) : m.item.IsBounded := by
  cases m with
  | one c => exact c.code_le
  | range _ hi => exact hi.code_le
  | set named complement => exact bounded_codes named complement

/-- The ranges of a member have the characters that it names. -/
theorem has_ranges (m : ClassMember) (x : Char) : m.item.ranges.has x = m.names x := by
  cases m with
  | one c =>
    rw [Bool.eq_iff_iff, CodeSet.has, item, ClassItem.ranges,
      contains_scalarRanges (isScalar_toNat x), names, decide_eq_true_iff]
    omega
  | range lo hi =>
    rw [Bool.eq_iff_iff, CodeSet.has, item, ClassItem.ranges,
      contains_scalarRanges (isScalar_toNat x), names, decide_eq_true_iff]
  | set named complement =>
    rw [item, has_ranges_set, names]
    cases complement with
    | false => rw [if_neg (by decide), Bool.bne_false]
    | true =>
      rw [if_pos rfl, CodeSet.has, CodeSet.contains_complement (normal_codes named)
        (toNat_le_maxCode x), Bool.bne_true]
      rfl

end ClassMember

namespace CharClass

theorem oneSided_ranges (c : CharClass) : ∀ r ∈ c.items.flatMap ClassItem.ranges, OneSided r := by
  have hitems : ∀ i ∈ c.items, i.IsBounded := c.forall_items trivial fun m _ => m.isBounded_item
  intro r hr
  obtain ⟨item, hitem, hr⟩ := List.mem_flatMap.1 hr
  exact ClassItem.oneSided_ranges (hitems item hitem) r hr

/-- The ranges of a class have the characters that its members name. -/
theorem has_ranges (c : CharClass) (x : Char) :
    CodeSet.has (c.items.flatMap ClassItem.ranges) x = c.names x := by
  have hdash : ∀ dash, ((dashAtoms dash).map ClassItem.ofAtom).any (fun i => i.ranges.has x) =
      (dash && x == '-') := by
    rintro (- | -)
    · rfl
    · rw [dashAtoms, if_pos rfl, List.map_singleton, List.any_cons, List.any_nil, Bool.or_false,
        Bool.true_and]
      exact has_single '-' x
  rw [has_flatMap, items, List.any_append, List.any_append, hdash, hdash, List.any_map, names]
  simp only [Function.comp_def, ClassMember.has_ranges]
  cases c.firstDash <;> cases c.lastDash <;> cases x == '-' <;> simp

end CharClass

/-- A code point is read as a set of one character, or of none if it is a surrogate. -/
theorem has_codeChars (code : Nat) (x : Char) :
    (codeChars code).has x = decide (x.toNat = code) := by
  rw [Bool.eq_iff_iff, decide_eq_true_iff, codeChars]
  split
  · next hsurrogate =>
    refine iff_of_false CodeSet.not_contains_nil ?_
    rintro rfl
    exact absurd ((isSurrogate_toNat x).symm.trans hsurrogate) (by decide)
  · rw [CodeSet.has, single, CodeSet.contains_singleton, CodeRange.has_mk]
    omega

namespace CharSource

/-- The characters that a part takes are those that it admits. A negated class with both neighbours
of the surrogates among its members takes these two as well. -/
def Takes (c : CharSource) (x : Char) : Prop :=
  c.admits x = true ∨ (c.Straddles ∧ Borders x.toNat)

theorem has_chars (c : CharSource) (x : Char) : c.chars.has x = true ↔ c.Takes x := by
  rw [Takes]
  cases c with
  | raw c plain => simp [chars, has_single, admits, Straddles]
  | escape e =>
    simp only [chars, has_codeChars, admits, Straddles, false_and, or_false]
  | dot =>
    have hsides : ∀ r ∈ lineEnds, OneSided r := by simp [lineEnds, OneSided, maxCode]
    have hcross : ¬ Crosses lineEnds := fun h => absurd h.1 (by decide)
    have hends : lineEnds = ['\n', '\r', '\u2028', '\u2029'].flatMap (single ·.toNat) := rfl
    have hhas : lineEnds.has x = ['\n', '\r', '\u2028', '\u2029'].contains x := by
      rw [hends, has_flatMap, List.contains_eq_any_beq]
      simp only [has_single]
    rw [chars, has_classChars hsides, hhas, admits]
    simp [hcross, Straddles]
  | set named complement =>
    have hsides : ∀ r ∈ ClassItem.ranges (.set named.codes), OneSided r :=
      ClassItem.oneSided_ranges (bounded_codes named false)
    have hcross : ¬ Crosses (ClassItem.ranges (.set named.codes)) := by
      rintro ⟨hborder, -⟩
      have hset : named.codes.has '\uD7FF' = true := (has_ranges_set _ _).symm.trans hborder
      revert hset
      cases named <;> decide
    rw [chars, has_classChars hsides, has_ranges_set, admits]
    simp [hcross, Straddles]
  | cls c =>
    rw [chars, has_classChars c.oneSided_ranges, c.has_ranges, admits, CharClass.admits,
      Straddles, CharClass.Straddles, ← c.has_ranges '\uD7FF', ← c.has_ranges '\uE000', and_assoc]
    rfl

end CharSource

end JsonRules.Pattern
