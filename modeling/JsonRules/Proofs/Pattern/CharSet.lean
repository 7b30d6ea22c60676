import JsonRules.Pattern.Rendering
import JsonRules.Proofs.Text.Quoted
import JsonRules.Proofs.Unicode.CodeSet

/-!
# Classes are read as they are written

The text of a class in the syntax of a matcher is read back with the ranges that it was written
from, apart from the surrogates in them. The negation of these ranges has the characters that they
have not, with one exception: ranges that have both neighbours of the surrogates, U+D7FF and U+E000,
share these two with their negation.
-/

namespace JsonRules.Pattern

open Unicode (CodeRange CodeSet maxCode)
open Text (hexDigit? hex upperHex)

def IsScalar (code : Nat) : Prop := code < 0xD800 ∨ (0xDFFF < code ∧ code ≤ maxCode)

theorem isScalar_toNat (c : Char) : IsScalar c.toNat := by
  rcases c.valid with h | ⟨h, h'⟩
  · exact .inl h
  · exact .inr ⟨h, Nat.le_of_lt_succ h'⟩

theorem toNat_ofNat {code : Nat} (h : IsScalar code) : (Char.ofNat code).toNat = code := by
  have hvalid : code.isValidChar := by
    simp only [IsScalar, maxCode] at h
    exact h.imp id fun h => ⟨h.1, Nat.lt_succ_of_le h.2⟩
  rw [Char.ofNat, dif_pos hvalid]
  rfl

/-- The range is not empty and lies on one side of the surrogates. -/
def OneSided (r : CodeRange) : Prop :=
  r.lo ≤ r.hi ∧ (r.hi < 0xD800 ∨ (0xDFFF < r.lo ∧ r.hi ≤ maxCode))

theorem OneSided.merge {a b : CodeRange} (ha : OneSided a) (hb : OneSided b)
    (touch : b.lo ≤ a.hi + 1) : OneSided ⟨a.lo, max a.hi b.hi⟩ := by
  simp only [OneSided] at *
  omega

section Negate

/-- Both neighbours of the surrogates are in the set. -/
def Crosses (s : CodeSet) : Prop := s.contains 0xD7FF = true ∧ s.contains 0xE000 = true

/-- The code point is one of the neighbours of the surrogates. -/
def Borders (code : Nat) : Prop := code = 0xD7FF ∨ code = 0xE000

variable {r next : CodeRange} {rest s : CodeSet} {code : Nat}

theorem has_gap (hr : OneSided r) (hnext : OneSided next) (hsep : r.hi + 1 < next.lo)
    (hcode : IsScalar code) : (gap r next).Has code ↔
      (r.hi < code ∧ code < next.lo) ∨ (r.hi = 0xD7FF ∧ next.lo = 0xE000 ∧ Borders code) := by
  simp only [OneSided, IsScalar, Borders, gap, codeAfter, codeBefore, CodeRange.has_mk] at *
  split <;> split <;> omega

theorem lt_of_contains (hafter : ∀ x ∈ rest, next.hi + 1 < x.lo)
    (h : CodeSet.contains rest code = true) : next.hi + 1 < code := by
  obtain ⟨x, hx, hlo, -⟩ := CodeSet.contains_iff.1 h
  exact Nat.lt_of_lt_of_le (hafter x hx) hlo

/-- What lies outside a set lies before its first range, or behind it and outside the rest. -/
theorem not_contains_cons (hle : next.lo ≤ next.hi) (hafter : ∀ x ∈ rest, next.hi + 1 < x.lo) :
    ¬ CodeSet.contains (next :: rest) code = true ↔
      code < next.lo ∨ (next.hi < code ∧ ¬ CodeSet.contains rest code = true) := by
  rw [CodeSet.contains_cons, CodeRange.Has, not_or]
  constructor
  · rintro ⟨hout, hrest⟩
    by_cases hlo : code < next.lo
    · exact .inl hlo
    · exact .inr ⟨by omega, hrest⟩
  · rintro (hlo | ⟨hhi, hrest⟩)
    · refine ⟨by omega, fun h => ?_⟩
      have := lt_of_contains hafter h
      omega
    · exact ⟨by omega, hrest⟩

theorem crosses_cons (hr : OneSided r) (hnext : OneSided next) (hsep : r.hi + 1 < next.lo)
    (hafter : ∀ x ∈ rest, next.hi + 1 < x.lo) :
    Crosses (r :: next :: rest) ↔ (r.hi = 0xD7FF ∧ next.lo = 0xE000) ∨ Crosses (next :: rest) := by
  simp only [OneSided] at hr hnext
  simp only [Crosses, CodeSet.contains_cons, CodeRange.Has]
  constructor
  · rintro ⟨h | h | h, h' | h' | h'⟩
    · omega
    · exact .inl ⟨by omega, by omega⟩
    · have := lt_of_contains hafter h'; omega
    · omega
    · exact .inr ⟨.inl h, .inl h'⟩
    · exact .inr ⟨.inl h, .inr h'⟩
    · have := lt_of_contains hafter h; omega
    · exact .inr ⟨.inr h, .inl h'⟩
    · exact .inr ⟨.inr h, .inr h'⟩
  · rintro (⟨h, h'⟩ | ⟨h, h'⟩)
    · exact ⟨.inl (by omega), .inr (.inl (by omega))⟩
    · exact ⟨.inr h, .inr h'⟩

theorem contains_gapsAfter (hsides : ∀ x ∈ r :: rest, OneSided x)
    (hsep : CodeSet.Separated (r :: rest)) (hcode : IsScalar code) :
    (gapsAfter r rest).contains code = true ↔
      (r.hi < code ∧ ¬ rest.contains code = true) ∨ (Crosses (r :: rest) ∧ Borders code) := by
  induction rest generalizing r with
  | nil =>
    have hr := hsides r List.mem_cons_self
    simp only [OneSided] at hr
    simp only [IsScalar] at hcode
    have hnone : ¬ Crosses [r] := by
      simp only [Crosses, CodeSet.contains_singleton, CodeRange.Has]
      omega
    rw [gapsAfter, or_iff_left fun h => hnone h.1, and_iff_left CodeSet.not_contains_nil]
    split
    · rw [CodeSet.contains_singleton, CodeRange.has_mk, codeAfter]
      simp only [maxCode] at *
      split <;> omega
    · next hlast =>
      refine ⟨fun h => absurd h CodeSet.not_contains_nil, fun h => ?_⟩
      simp only [maxCode] at *
      omega
  | cons next rest ih =>
    obtain ⟨hr, hrest⟩ := List.forall_mem_cons.1 hsides
    have hnext := hrest next List.mem_cons_self
    obtain ⟨hlo, hsep'⟩ := List.pairwise_cons.1 hsep
    have hgap := hlo next List.mem_cons_self
    have hafter := (List.pairwise_cons.1 hsep').1
    have hbehind : next.hi < code → r.hi < code := by
      have := hnext.1
      omega
    rw [gapsAfter, CodeSet.contains_cons, ih hrest hsep', has_gap hr hnext hgap hcode,
      crosses_cons hr hnext hgap hafter, not_contains_cons hnext.1 hafter]
    constructor
    · rintro ((⟨h, h'⟩ | ⟨h, h', hb⟩) | ⟨h, h'⟩ | ⟨h, hb⟩)
      · exact .inl ⟨h, .inl h'⟩
      · exact .inr ⟨.inl ⟨h, h'⟩, hb⟩
      · exact .inl ⟨hbehind h, .inr ⟨h, h'⟩⟩
      · exact .inr ⟨.inr h, hb⟩
    · rintro (⟨h, h' | h'⟩ | ⟨⟨h, h'⟩ | h, hb⟩)
      · exact .inl (.inl ⟨h, h'⟩)
      · exact .inr (.inl h')
      · exact .inl (.inr ⟨h, h', hb⟩)
      · exact .inr (.inr ⟨h, hb⟩)

/-- The negation of a set has the characters that the set has not, and both neighbours of the
surrogates if the set has both, too. -/
theorem contains_negate (hsides : ∀ x ∈ s, OneSided x) (hsep : CodeSet.Separated s)
    (hcode : IsScalar code) : (negate s).contains code = true ↔
      ¬ s.contains code = true ∨ (Crosses s ∧ Borders code) := by
  cases s with
  | nil =>
    rw [negate, CodeSet.contains_singleton, CodeRange.has_mk]
    simp only [IsScalar, maxCode] at *
    exact ⟨fun _ => .inl CodeSet.not_contains_nil, fun _ => by omega⟩
  | cons r rest =>
    have hr := hsides r List.mem_cons_self
    have hfirst : CodeSet.contains (if r.lo = 0 then [] else [⟨0, codeBefore r.lo⟩]) code = true ↔
        code < r.lo := by
      simp only [OneSided, IsScalar] at hr hcode
      split
      · exact ⟨fun h => absurd h CodeSet.not_contains_nil, fun h => by omega⟩
      · rw [CodeSet.contains_singleton, CodeRange.has_mk, codeBefore]
        split <;> omega
    rw [negate, CodeSet.contains_append, Bool.or_eq_true, hfirst,
      contains_gapsAfter hsides hsep hcode,
      not_contains_cons hr.1 (List.pairwise_cons.1 hsep).1, or_assoc]

end Negate

section Numbers

theorem hexDigit?_digitChar : ∀ k < 16, hexDigit? (Nat.digitChar k).toUpper = some k := by decide

theorem brace_not_mem_upperHex (n : Nat) : '}' ∉ upperHex n := by
  intro h
  obtain ⟨c, hc, hbrace⟩ := List.mem_map.1 h
  obtain ⟨k, hk, rfl⟩ := Text.mem_toDigits (by decide) hc
  have hdigit := hexDigit?_digitChar k hk
  rw [hbrace] at hdigit
  cases hdigit

theorem foldlM_upperHex (n : Nat) :
    (upperHex n).foldlM (fun n c => (hexDigit? c).map fun d => n * 16 + d) 0 = some n := by
  induction n using Nat.strongRecOn with
  | ind n ih =>
    rw [upperHex, hex, Nat.toDigits_eq_if (by decide)]
    split
    · next hlt => simp [hexDigit?_digitChar n hlt]
    · next hge =>
      have hleading := ih (n / 16) (by omega)
      rw [upperHex, hex] at hleading
      rw [List.map_append, List.foldlM_append, hleading]
      simp only [Option.bind_eq_bind, Option.bind_some, List.map_cons, List.map_nil,
        List.foldlM_cons, List.foldlM_nil, hexDigit?_digitChar _ (Nat.mod_lt n (by decide)),
        Option.map_some, Option.pure_def]
      rw [Nat.div_add_mod']

theorem hexNumber?_upperHex (n : Nat) : hexNumber? (upperHex n) = some n := by
  have hne : upperHex n ≠ [] := by
    rw [upperHex, hex, ne_eq, List.map_eq_nil_iff]
    exact Nat.toDigits_ne_nil
  rw [hexNumber?, if_neg (by simpa using hne), foldlM_upperHex]

theorem before?_append {stop : Char} {cs : List Char} (h : stop ∉ cs) (rest : List Char) :
    before? stop (cs ++ stop :: rest) = some (cs, rest) := by
  induction cs with
  | nil => rw [List.nil_append, before?, if_pos rfl]
  | cons c cs ih =>
    obtain ⟨hc, hcs⟩ := not_or.1 (mt List.mem_cons.2 h)
    rw [List.cons_append, before?, if_neg (Ne.symm hc), ih hcs]
    rfl

/-- A code point that is written by number is read back. -/
theorem numberedCode?_upperHex (code : Nat) (rest : List Char) :
    numberedCode? ('{' :: (upperHex code ++ '}' :: rest)) = some (code, rest) := by
  simp only [numberedCode?, before?_append (brace_not_mem_upperHex code),
    Option.bind_eq_bind, Option.bind_some, hexNumber?_upperHex]

end Numbers

section Members

def plainRange (lo hi : Nat) : CodeSet := if hi < lo then [] else [⟨lo, hi⟩]

/-- The ranges that a range is written as without its surrogates. -/
def scalarRanges (lo hi : Nat) : CodeSet :=
  plainRange lo (min hi 0xD7FF) ++ plainRange (max lo 0xE000) hi

def ClassItem.ranges : ClassItem → CodeSet
  | range lo hi => scalarRanges lo hi
  | dash => [⟨0x2D, 0x2D⟩]
  | set codes => codes.flatMap fun r => scalarRanges r.lo r.hi
  | property _ => []

def ClassItem.IsExplicit : ClassItem → Prop
  | property _ => False
  | _ => True

theorem contains_scalarRanges {lo hi code : Nat} (hcode : IsScalar code) :
    (scalarRanges lo hi).contains code = true ↔ lo ≤ code ∧ code ≤ hi := by
  have hplain : ∀ lo hi, (plainRange lo hi).contains code = true ↔ lo ≤ code ∧ code ≤ hi := by
    intro lo hi
    rw [plainRange]
    split
    · exact ⟨fun h => absurd h CodeSet.not_contains_nil, fun h => by omega⟩
    · rw [CodeSet.contains_singleton, CodeRange.has_mk]
  rw [scalarRanges, CodeSet.contains_append, Bool.or_eq_true, hplain, hplain]
  simp only [IsScalar] at hcode
  omega

theorem oneSided_scalarRanges {lo hi : Nat} (hmax : hi ≤ maxCode) :
    ∀ r ∈ scalarRanges lo hi, OneSided r := by
  have hplain : ∀ {lo hi r}, r ∈ plainRange lo hi → lo ≤ hi ∧ r = ⟨lo, hi⟩ := by
    intro lo hi r h
    rw [plainRange] at h
    split at h
    · cases h
    · exact ⟨by omega, List.mem_singleton.1 h⟩
  intro r hr
  rcases List.mem_append.1 hr with h | h
  · obtain ⟨hle, rfl⟩ := hplain h
    exact ⟨hle, .inl (by simp only; omega)⟩
  · obtain ⟨hle, rfl⟩ := hplain h
    exact ⟨hle, .inr ⟨by simp only; omega, hmax⟩⟩

/-- What begins a member of a class does not end the class, negate it or go on with a range. -/
theorem ne_of_classMember? {c : Char} {cs : List Char} {r : CodeSet × List Char}
    (h : classMember? (c :: cs) = some r) : c ≠ ']' ∧ c ≠ '-' ∧ c ≠ '^' := by
  refine ⟨?_, ?_, ?_⟩ <;> rintro rfl <;> cases h

theorem classCode?_plain {c : Char} (hc : c.isAlphanum = true ∨ c = '_') (cs : List Char) :
    classCode? (c :: cs) = some (c.toNat, cs) := by
  have hne : c ≠ '\\' := by rintro rfl; revert hc; decide
  rw [classCode?, if_pos (by simpa using hc)] <;> exact fun _ h => absurd h hne

theorem classCode?_hexText (code : Nat) (rest : List Char) :
    classCode? (hexText code ++ rest) = some (code, rest) := by
  have htext : hexText code ++ rest = '\\' :: 'x' :: '{' :: (upperHex code ++ '}' :: rest) := by
    simp [hexText]
  rw [htext]
  exact numberedCode?_upperHex code rest

/-- A code point in a class is read back. -/
theorem classCode?_text (code : Nat) (rest : List Char) :
    classCode? (classCodeText code ++ rest) = some (code, rest) := by
  rw [classCodeText]
  split
  · next h =>
    rw [List.singleton_append, classCode?_plain h.2, toNat_ofNat (.inl (by omega))]
  · exact classCode?_hexText code rest

def memberText (r : CodeRange) : List Char :=
  if r.lo = r.hi then classCodeText r.lo else classCodeText r.lo ++ '-' :: classCodeText r.hi

/-- What begins a code point in a class begins no property. -/
theorem classMember?_of_classCode? {cs rest : List Char} {code : Nat}
    (h : classCode? cs = some (code, rest)) (hrest : rest.head? ≠ some '-') :
    classMember? cs = some ([⟨code, code⟩], rest) := by
  unfold classMember?
  split
  · cases h
  · cases h
  · rw [h]
    simp only [Option.bind_eq_bind, Option.bind_some]
    split
    · exact absurd rfl hrest
    · rfl

theorem classMember?_text {r : CodeRange} (hle : r.lo ≤ r.hi) {rest : List Char}
    (hrest : rest.head? ≠ some '-') : classMember? (memberText r ++ rest) = some ([r], rest) := by
  obtain ⟨lo, hi⟩ := r
  rw [memberText]
  split
  · next h =>
    obtain rfl : lo = hi := h
    exact classMember?_of_classCode? (classCode?_text lo rest) hrest
  · have hlo := classCode?_text lo ('-' :: (classCodeText hi ++ rest))
    rw [List.append_assoc, List.cons_append]
    unfold classMember?
    split
    · next heq => rw [heq] at hlo; cases hlo
    · next heq => rw [heq] at hlo; cases hlo
    · simp only [hlo, Option.bind_eq_bind, Option.bind_some, classCode?_text hi rest]
      rw [if_neg (Nat.not_lt.2 hle)]

/-- The text of the members of a class up to its closing bracket, the ranges of the members and
the text after the bracket. -/
inductive ClassBody : List Char → CodeSet → List Char → Prop
  | close (rest : List Char) : ClassBody (']' :: rest) [] rest
  | member {cs more rest : List Char} {r : CodeRange} {ranges : CodeSet}
      (head : classMember? cs = some ([r], more)) (shorter : more.length < cs.length)
      (tail : ClassBody more ranges rest) : ClassBody cs (r :: ranges) rest

theorem ClassBody.head {cs rest : List Char} {ranges : CodeSet} (h : ClassBody cs ranges rest) :
    cs.head? ≠ some '-' ∧ cs.head? ≠ some '^' := by
  cases h with
  | close => exact ⟨fun h => absurd (Option.some.inj h) (by decide),
      fun h => absurd (Option.some.inj h) (by decide)⟩
  | member head shorter =>
    cases cs with
    | nil => exact absurd shorter (Nat.not_lt_zero _)
    | cons c cs =>
      obtain ⟨-, hdash, hcaret⟩ := ne_of_classMember? head
      exact ⟨fun h => hdash (Option.some.inj h), fun h => hcaret (Option.some.inj h)⟩

theorem ClassBody.classMembers {cs rest : List Char} {ranges : CodeSet}
    (h : ClassBody cs ranges rest) : ∀ bound, cs.length < bound →
      classMembers? bound cs = some (ranges.map fun r => [r], rest) := by
  induction h with
  | close rest =>
    rintro (- | bound) hlen
    · exact absurd hlen (Nat.not_lt_zero _)
    · rfl
  | @member cs more rest r ranges head shorter _ ih =>
    rintro (- | bound) hlen
    · exact absurd hlen (Nat.not_lt_zero _)
    · unfold classMembers?
      split
      · exact absurd rfl (ne_of_classMember? head).1
      · rw [head]
        simp only [Option.bind_eq_bind, Option.bind_some]
        rw [ih bound (by omega)]
        rfl

/-- A class is read with its ranges. -/
theorem ClassBody.class? {cs rest : List Char} {ranges : CodeSet} (h : ClassBody cs ranges rest)
    (hne : ranges ≠ []) (negated : Bool) :
    Pattern.class? ((if negated then ['^'] else []) ++ cs) =
      some ((if negated then negate (CodeSet.ofRanges ranges) else CodeSet.ofRanges ranges,
        ranges.length), rest) := by
  have hmembers := h.classMembers (cs.length + 1) (Nat.lt_succ_self _)
  have hflat : (ranges.map fun r => [r]).flatten = ranges := by
    rw [← List.flatMap_def, List.flatMap_singleton']
  have hempty : (ranges.map fun r => [r]).isEmpty = false := by
    cases ranges with
    | nil => exact absurd rfl hne
    | cons r rest => rfl
  unfold Pattern.class?
  split
  next isNegated body hopening =>
  obtain ⟨rfl, rfl⟩ : isNegated = negated ∧ body = cs := by
    cases negated with
    | true => cases hopening; exact ⟨rfl, rfl⟩
    | false =>
      split at hopening
      · next heq => exact absurd (congrArg List.head? heq) h.head.2
      · cases hopening; exact ⟨rfl, rfl⟩
  simp only [hmembers, Option.bind_eq_bind, Option.bind_some, hflat, hempty, List.length_map,
    Bool.false_eq_true, if_false]

theorem memberText_ne_nil (r : CodeRange) : memberText r ≠ [] := by
  have hcode : ∀ code, classCodeText code ≠ [] := by
    intro code
    rw [classCodeText]
    split <;> simp [hexText]
  rw [memberText]
  split
  · exact hcode _
  · simp [hcode]

/-- The text of ranges before the rest of a class. -/
theorem ClassBody.members {ranges more : CodeSet} {body rest : List Char}
    (hle : ∀ r ∈ ranges, r.lo ≤ r.hi) (h : ClassBody body more rest) :
    ClassBody (ranges.flatMap memberText ++ body) (ranges ++ more) rest := by
  induction ranges with
  | nil => exact h
  | cons r ranges ih =>
    obtain ⟨hr, hranges⟩ := List.forall_mem_cons.1 hle
    have htail := ih hranges
    have hpos := List.length_pos_iff.2 (memberText_ne_nil r)
    rw [List.flatMap_cons, List.append_assoc]
    refine .member (classMember?_text hr htail.head.1) ?_ htail
    have hlen : (memberText r ++ (ranges.flatMap memberText ++ body)).length = _ :=
      List.length_append
    omega

theorem le_of_mem_scalarRanges {lo hi : Nat} {r : CodeRange} (h : r ∈ scalarRanges lo hi) :
    r.lo ≤ r.hi := by
  have hplain : ∀ {lo hi}, r ∈ plainRange lo hi → r.lo ≤ r.hi := by
    intro lo hi h
    rw [plainRange] at h
    split at h
    · cases h
    · next hlt => rw [List.mem_singleton.1 h]; exact Nat.le_of_not_lt hlt
  exact (List.mem_append.1 h).elim hplain hplain

theorem rangeText_eq (lo hi : Nat) : rangeText lo hi = (scalarRanges lo hi).flatMap memberText := by
  have hplain : ∀ lo hi, plainRangeText lo hi = (plainRange lo hi).flatMap memberText := by
    intro lo hi
    rw [plainRangeText, plainRange]
    split
    · rfl
    · rw [List.flatMap_singleton, memberText]
  rw [rangeText, scalarRanges, List.flatMap_append, hplain, hplain]

theorem rangesText_eq (codes : CodeSet) :
    rangesText codes = (codes.flatMap fun r => scalarRanges r.lo r.hi).flatMap memberText := by
  rw [rangesText, List.flatMap_assoc]
  exact congrArg (codes.flatMap ·) (funext fun r => rangeText_eq r.lo r.hi)

theorem ClassBody.item {item : ClassItem} (hitem : item.IsExplicit) {body rest : List Char}
    {more : CodeSet} (h : ClassBody body more rest) :
    ClassBody (item.text ++ body) (item.ranges ++ more) rest := by
  cases item with
  | range lo hi =>
    rw [ClassItem.text, rangeText_eq]
    exact h.members fun r hr => le_of_mem_scalarRanges hr
  | dash =>
    refine .member (classMember?_of_classCode? rfl h.head.1) ?_ h
    exact Nat.lt_of_lt_of_le (Nat.lt_succ_self _) (Nat.le_succ _)
  | set codes =>
    rw [ClassItem.text, rangesText_eq]
    refine h.members fun r hr => ?_
    obtain ⟨_, -, hr⟩ := List.mem_flatMap.1 hr
    exact le_of_mem_scalarRanges hr
  | property text => cases hitem

theorem ClassBody.items {items : List ClassItem} (hitems : ∀ i ∈ items, i.IsExplicit)
    {body rest : List Char} {more : CodeSet} (h : ClassBody body more rest) :
    ClassBody (items.flatMap ClassItem.text ++ body) (items.flatMap ClassItem.ranges ++ more)
      rest := by
  induction items with
  | nil => exact h
  | cons item items ih =>
    obtain ⟨hitem, hitems⟩ := List.forall_mem_cons.1 hitems
    rw [List.flatMap_cons, List.flatMap_cons, List.append_assoc, List.append_assoc]
    exact (ih hitems).item hitem

/-- A class is left without text exactly if it has no characters to name. -/
theorem flatMap_text_eq_nil {items : List ClassItem} (hitems : ∀ i ∈ items, i.IsExplicit) :
    items.flatMap ClassItem.text = [] ↔ items.flatMap ClassItem.ranges = [] := by
  have hmembers : ∀ ranges : CodeSet, ranges.flatMap memberText = [] ↔ ranges = [] := by
    intro ranges
    cases ranges with
    | nil => simp
    | cons r rest => simp [memberText_ne_nil r]
  rw [List.flatMap_eq_nil_iff, List.flatMap_eq_nil_iff]
  refine forall₂_congr fun item hitem => ?_
  cases item with
  | range lo hi => rw [ClassItem.text, rangeText_eq, hmembers, ClassItem.ranges]
  | dash => simp [ClassItem.text, ClassItem.ranges]
  | set codes => rw [ClassItem.text, rangesText_eq, hmembers, ClassItem.ranges]
  | property text => exact absurd (hitems _ hitem) id

end Members

section Codes

theorem toNat_of_isDigit {c : Char} (h : c.isDigit = true) : 48 ≤ c.toNat ∧ c.toNat ≤ 57 := by
  simp only [Char.isDigit, Bool.and_eq_true, decide_eq_true_iff] at h
  exact ⟨UInt32.le_iff_toNat_le.1 h.1, UInt32.le_iff_toNat_le.1 h.2⟩

theorem isDigit_of_isMeta {c : Char} (h : isMeta c = true) : c.isDigit = false := by
  have hdigits : ∀ n < 58, 48 ≤ n → isMeta (Char.ofNat n) = false := by decide
  rw [Bool.eq_false_iff]
  intro hdigit
  obtain ⟨hlow, hhigh⟩ := toNat_of_isDigit hdigit
  have hplain := hdigits c.toNat (by omega) hlow
  rw [Char.ofNat_toNat, h] at hplain
  cases hplain

theorem escapedSet?_meta {c : Char} (h : isMeta c = true) (cs : List Char) :
    escapedSet? (c :: cs) = some (single c.toNat, cs) := by
  unfold escapedSet?
  split
  · next heq => cases heq; cases h
  · next heq => cases heq; cases h
  · next heq => cases heq; cases h
  · next heq => cases heq; exact if_pos h
  · next heq => cases heq

theorem escapedSet?_digit {c : Char} (h : c.isDigit = true) (cs : List Char) :
    escapedSet? (c :: cs) = none := by
  unfold escapedSet?
  split
  · next heq => cases heq; cases h
  · next heq => cases heq; cases h
  · next heq => cases heq; cases h
  · next heq =>
    cases heq
    refine if_neg fun hmeta => ?_
    exact absurd (h.symm.trans (isDigit_of_isMeta hmeta)) (by decide)
  · rfl

theorem escapedSet?_number (code : Nat) (rest : List Char) :
    escapedSet? ('x' :: '{' :: (upperHex code ++ '}' :: rest)) = some (single code, rest) := by
  rw [escapedSet?, numberedCode?_upperHex]
  rfl

theorem isSurrogate_toNat (c : Char) : isSurrogate c.toNat = false := by
  have hc := isScalar_toNat c
  simp only [IsScalar] at hc
  simp only [isSurrogate, isHighSurrogate, isLowSurrogate, Bool.or_eq_false_iff,
    Bool.and_eq_false_iff, decide_eq_false_iff_not]
  omega

/-- How a code point is written outside of a class: a surrogate as a class without members, a
character by its number, after a backslash or as it is. -/
inductive CodeForm : Nat → List Char → Prop
  | surrogate {code : Nat} (h : isSurrogate code = true) : CodeForm code noneText
  | number {code : Nat} (h : isSurrogate code = false) : CodeForm code (hexText code)
  | escaped {c : Char} (h : isMeta c = true) : CodeForm c.toNat ['\\', c]
  | plain {c : Char} (isPlain : isMeta c = false) (isShown : Unicode.isWhiteSpace c = false) :
      CodeForm c.toNat [c]

theorem codeForm (code : Nat) : CodeForm code (codeText code) := by
  unfold codeText
  split
  · next h => exact .surrogate h
  next hscalar =>
  simp only
  split
  · exact .number ((Bool.not_eq_true _).mp hscalar)
  next hshown =>
  rw [Bool.or_eq_true, not_or, Bool.not_eq_true, Bool.not_eq_true] at hshown
  -- what is no code point of a character would be shown as the control U+0000
  have hcode : (Char.ofNat code).toNat = code := by
    by_cases hvalid : code.isValidChar
    · rw [Char.ofNat, dif_pos hvalid]
      rfl
    · rw [Char.ofNat, dif_neg hvalid] at hshown
      exact absurd hshown.1 (by decide)
  split
  · next hmeta =>
    have hform := CodeForm.escaped hmeta
    rwa [hcode] at hform
  · next hmeta =>
    have hform := CodeForm.plain ((Bool.not_eq_true _).mp hmeta) hshown.2
    rwa [hcode] at hform

end Codes

end JsonRules.Pattern
