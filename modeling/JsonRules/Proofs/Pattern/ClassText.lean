import JsonRules.Pattern.ClassGrammar
import JsonRules.Proofs.Pattern.Linear.Chars

/-!
# Any class is read as it is written

A class of ranges, sets and Unicode properties in the syntax of a matcher is read back with the sets
of its members, unless it names a property that the matcher does not know. Its negation has the
characters that its members have not, as long as these do not have both neighbours of the surrogates.
-/

namespace JsonRules.Pattern

open Linear
open Unicode (CodeRange CodeSet maxCode)

section Negate

/-- The code point is next to the surrogates, and the set has the one on their other side. -/
def Faces (s : CodeSet) (code : Nat) : Prop :=
  (code = 0xD7FF ∧ s.contains 0xE000 = true) ∨ (code = 0xE000 ∧ s.contains 0xD7FF = true)

variable {r next : CodeRange} {rest s : CodeSet} {code : Nat}

theorem Faces.cons (h : Faces s code) : Faces (r :: s) code := by
  unfold Faces at *
  simp only [CodeSet.contains_cons]
  exact h.imp (And.imp_right .inr) (And.imp_right .inr)

/-- A gap between two ranges has a code point in neither of them only next to the surrogates. -/
theorem gap_sound (hr : r.lo ≤ r.hi) (hsep : r.hi + 1 < next.lo)
    (hcode : IsScalar code) (h : (gap r next).Has code) :
    (r.hi < code ∧ code < next.lo) ∨ (code = 0xD7FF ∧ next.lo = 0xE000) ∨
      (code = 0xE000 ∧ r.hi = 0xD7FF) := by
  simp only [IsScalar, gap, codeAfter, codeBefore, CodeRange.has_mk] at *
  split at h <;> split at h <;> omega

theorem gap_complete (hcode : IsScalar code) (hlo : r.hi < code) (hhi : code < next.lo) :
    (gap r next).Has code := by
  simp only [IsScalar, gap, codeAfter, codeBefore, CodeRange.has_mk] at *
  split <;> split <;> omega

theorem gapsAfter_sound (hle : ∀ x ∈ r :: rest, x.lo ≤ x.hi) (hsep : CodeSet.Separated (r :: rest))
    (hcode : IsScalar code) (h : (gapsAfter r rest).contains code = true) :
    (r.hi < code ∧ ¬ rest.contains code = true) ∨ Faces (r :: rest) code := by
  induction rest generalizing r with
  | nil =>
    left
    refine ⟨?_, CodeSet.not_contains_nil⟩
    unfold gapsAfter at h
    split at h
    · rw [CodeSet.contains_singleton, CodeRange.has_mk, codeAfter] at h
      split at h <;> omega
    · exact absurd h CodeSet.not_contains_nil
  | cons next rest ih =>
    obtain ⟨hr, hrest⟩ := List.forall_mem_cons.1 hle
    have hnext := hrest next List.mem_cons_self
    obtain ⟨hlo, hsep'⟩ := List.pairwise_cons.1 hsep
    have hgap := hlo next List.mem_cons_self
    have hafter := (List.pairwise_cons.1 hsep').1
    rw [gapsAfter, CodeSet.contains_cons] at h
    rcases h with h | h
    · rcases gap_sound hr hgap hcode h with ⟨hlow, hhigh⟩ | ⟨rfl, hlow⟩ | ⟨rfl, hhigh⟩
      · exact .inl ⟨hlow, (not_contains_cons hnext hafter).2 (.inl hhigh)⟩
      · refine .inr (.inl ⟨rfl, ?_⟩)
        rw [CodeSet.contains_cons, CodeSet.contains_cons]
        exact .inr (.inl ⟨by omega, by omega⟩)
      · refine .inr (.inr ⟨rfl, ?_⟩)
        rw [CodeSet.contains_cons]
        exact .inl ⟨by omega, by omega⟩
    · rcases ih hrest hsep' h with ⟨hhigh, hout⟩ | hfaces
      · exact .inl ⟨by omega, (not_contains_cons hnext hafter).2 (.inr ⟨hhigh, hout⟩)⟩
      · exact .inr hfaces.cons

theorem gapsAfter_complete (hle : ∀ x ∈ r :: rest, x.lo ≤ x.hi)
    (hsep : CodeSet.Separated (r :: rest)) (hcode : IsScalar code) (hlow : r.hi < code)
    (hout : ¬ rest.contains code = true) : (gapsAfter r rest).contains code = true := by
  induction rest generalizing r with
  | nil =>
    simp only [IsScalar, maxCode] at hcode
    unfold gapsAfter
    rw [if_pos (by unfold maxCode; omega), CodeSet.contains_singleton, CodeRange.has_mk, codeAfter]
    unfold maxCode
    split <;> omega
  | cons next rest ih =>
    obtain ⟨-, hrest⟩ := List.forall_mem_cons.1 hle
    have hnext := hrest next List.mem_cons_self
    obtain ⟨-, hsep'⟩ := List.pairwise_cons.1 hsep
    rw [gapsAfter, CodeSet.contains_cons]
    rcases (not_contains_cons hnext (List.pairwise_cons.1 hsep').1).1 hout with hhigh | ⟨hhi, hout⟩
    · exact .inl (gap_complete hcode hlow hhigh)
    · exact .inr (ih hrest hsep' hhi hout)

/-- Unless a set has both neighbours of the surrogates, its negation has exactly the other
characters, whatever the ranges of the set are. -/
theorem contains_negate_of_not_crosses (hle : ∀ x ∈ s, x.lo ≤ x.hi) (hsep : CodeSet.Separated s)
    (hcode : IsScalar code) (hcross : ¬ (Crosses s ∧ Borders code)) :
    (negate s).contains code = true ↔ ¬ s.contains code = true := by
  have hfaces : Faces s code → ¬ s.contains code = true := by
    rintro (⟨rfl, hother⟩ | ⟨rfl, hother⟩) hmem
    · exact hcross ⟨⟨hmem, hother⟩, .inl rfl⟩
    · exact hcross ⟨⟨hother, hmem⟩, .inr rfl⟩
  cases s with
  | nil =>
    rw [negate, CodeSet.contains_singleton, CodeRange.has_mk]
    simp only [IsScalar, maxCode] at *
    exact ⟨fun _ => CodeSet.not_contains_nil, fun _ => by omega⟩
  | cons r rest =>
    have hr := hle r List.mem_cons_self
    have hafter := (List.pairwise_cons.1 hsep).1
    have hfirst : CodeSet.contains (if r.lo = 0 then [] else [⟨0, codeBefore r.lo⟩]) code = true ↔
        code < r.lo := by
      simp only [IsScalar] at hcode
      split
      · exact ⟨fun h => absurd h CodeSet.not_contains_nil, fun h => by omega⟩
      · rw [CodeSet.contains_singleton, CodeRange.has_mk, codeBefore]
        split <;> omega
    rw [negate, CodeSet.contains_append, Bool.or_eq_true, hfirst]
    constructor
    · rintro (hlow | hgaps)
      · exact (not_contains_cons hr hafter).2 (.inl hlow)
      · rcases gapsAfter_sound hle hsep hcode hgaps with hout | h
        · exact (not_contains_cons hr hafter).2 (.inr hout)
        · exact hfaces h
    · intro hout
      rcases (not_contains_cons hr hafter).1 hout with hlow | ⟨hhigh, hrest⟩
      · exact .inl hlow
      · exact .inr (gapsAfter_complete hle hsep hcode hhigh hrest)

theorem has_classChars_of_not_crosses {ranges : CodeSet} {negated : Bool} {x : Char}
    (hcross : ¬ (negated = true ∧ Crosses ranges ∧ Borders x.toNat)) :
    (classChars negated ranges).has x = true ↔ (ranges.has x != negated) = true := by
  obtain ⟨hsep, hsame⟩ := CodeSet.ofRanges_spec ranges
  have hle : ∀ r ∈ CodeSet.ofRanges ranges, r.lo ≤ r.hi :=
    CodeSet.forall_ofRanges ranges (fun a b ha _ _ => Nat.le_trans ha (Nat.le_max_left _ _))
      fun _ _ h => h
  unfold classChars
  cases negated with
  | false => simp [CodeSet.has, hsame]
  | true =>
    have hjoined : ¬ (Crosses (CodeSet.ofRanges ranges) ∧ Borders x.toNat) := by
      simp only [Crosses, hsame]
      exact fun h => hcross ⟨rfl, h⟩
    rw [if_pos rfl, CodeSet.has,
      contains_negate_of_not_crosses hle hsep (isScalar_toNat x) hjoined, hsame]
    simp [CodeSet.has]

end Negate

section Properties

def propertyLetter (negated : Bool) : Char := if negated then 'P' else 'p'

/-- A property escape: a name in braces or a single character after the letter. -/
inductive IsPropertyText : List Char → Prop
  | braced (negated : Bool) {name : List Char} (h : '}' ∉ name) :
      IsPropertyText ('\\' :: propertyLetter negated :: '{' :: (name ++ ['}']))
  | short (negated : Bool) {c : Char} (h : c ≠ '{') :
      IsPropertyText ['\\', propertyLetter negated, c]

theorem property?_braced (negated : Bool) {name : List Char} (h : '}' ∉ name) (rest : List Char) :
    property? negated ('{' :: (name ++ '}' :: rest)) =
      (propertySet? name).map fun codes => (if negated then negate codes else codes, rest) := by
  unfold property?
  simp only [before?_append h, Option.bind_eq_bind, Option.bind_some]
  cases propertySet? name <;> rfl

theorem property?_short (negated : Bool) {c : Char} (h : c ≠ '{') (rest : List Char) :
    property? negated (c :: rest) =
      (propertySet? [c]).map fun codes => (if negated then negate codes else codes, rest) := by
  unfold property?
  split
  all_goals
    simp only [Option.bind_eq_bind, Option.bind_some]
    cases propertySet? [c] <;> rfl

/-- A property escape is read to its end, whatever follows it. -/
theorem IsPropertyText.property? {text : List Char} (h : IsPropertyText text) :
    ∃ negated tail, text = '\\' :: propertyLetter negated :: tail ∧ ∀ rest,
      Pattern.property? negated (tail ++ rest) =
        (propertyCodes? text).map fun codes => (codes, rest) := by
  have hescaped : ∀ negated tail, Pattern.escapedSet? (propertyLetter negated :: tail) =
      Pattern.property? negated tail := by
    intro negated tail
    cases negated <;> rfl
  cases h with
  | @braced negated name h =>
    refine ⟨negated, _, rfl, fun rest => ?_⟩
    unfold propertyCodes?
    rw [List.tail_cons, hescaped, property?_braced negated h, List.cons_append, List.append_assoc,
      List.singleton_append, property?_braced negated h]
    cases propertySet? name <;> rfl
  | @short negated c h =>
    refine ⟨negated, _, rfl, fun rest => ?_⟩
    unfold propertyCodes?
    rw [List.tail_cons, hescaped, property?_short negated h, List.singleton_append,
      property?_short negated h]
    cases propertySet? [c] <;> rfl

theorem IsPropertyText.classMember? {text : List Char} (h : IsPropertyText text)
    (rest : List Char) : Pattern.classMember? (text ++ rest) =
      (propertyCodes? text).map fun codes => (codes, rest) := by
  obtain ⟨negated, tail, htext, hread⟩ := h.property?
  rw [htext, List.cons_append, List.cons_append, ← htext, ← hread rest]
  cases negated <;> rfl

end Properties

section Members

/-- The members of a class up to its closing bracket and the text after it, or none if a member is
refused. -/
inductive ClassReads : List Char → Option (List CodeSet × List Char) → Prop
  | close (rest : List Char) : ClassReads (']' :: rest) (some ([], rest))
  | member {cs more : List Char} {set : CodeSet} {read? : Option (List CodeSet × List Char)}
      (head : classMember? cs = some (set, more)) (shorter : more.length < cs.length)
      (tail : ClassReads more read?) : ClassReads cs (read?.map fun r => (set :: r.1, r.2))
  | refused {c : Char} {cs : List Char} (open' : c ≠ ']') (head : classMember? (c :: cs) = none) :
      ClassReads (c :: cs) none

theorem ClassReads.classMembers? {cs : List Char} {read? : Option (List CodeSet × List Char)}
    (h : ClassReads cs read?) : ∀ bound, cs.length < bound →
      Pattern.classMembers? bound cs = read? := by
  induction h with
  | close rest =>
    rintro (- | bound) hlen
    · exact absurd hlen (Nat.not_lt_zero _)
    · rfl
  | @member cs more set read? head shorter _ ih =>
    rintro (- | bound) hlen
    · exact absurd hlen (Nat.not_lt_zero _)
    · unfold Pattern.classMembers?
      split
      · exact absurd rfl (ne_of_classMember? head).1
      · rw [head]
        simp only [Option.bind_eq_bind, Option.bind_some]
        rw [ih bound (by omega)]
        cases read? <;> rfl
  | @refused c cs hopen head =>
    rintro (- | bound) hlen
    · exact absurd hlen (Nat.not_lt_zero _)
    · unfold Pattern.classMembers?
      split
      · next heq => exact absurd (List.cons.inj heq).1 hopen
      · rw [head]
        rfl

/-- The member is no property, or one that is written to its end. -/
def ClassItem.IsWritten : ClassItem → Prop
  | property text => IsPropertyText text
  | _ => True

/-- The sets that a member is read as, unless it is a property that is not known. -/
def ClassItem.sets? : ClassItem → Option (List CodeSet)
  | property text => (propertyCodes? text).map fun codes => [codes]
  | item => some (item.ranges.map fun r => [r])

def setsOf? : List ClassItem → Option (List CodeSet)
  | [] => some []
  | item :: items => item.sets?.bind fun sets => (setsOf? items).map (sets ++ ·)

/-- The text begins neither like a negation nor like the end of a range. -/
def Begins (cs : List Char) : Prop := cs.head? ≠ some '-' ∧ cs.head? ≠ some '^'

theorem begins_cons {c : Char} {cs : List Char} (h : c ≠ '-' ∧ c ≠ '^') : Begins (c :: cs) :=
  ⟨fun heq => h.1 (Option.some.inj heq), fun heq => h.2 (Option.some.inj heq)⟩

theorem begins_of_classCode? {cs : List Char} {r : Nat × List Char} (h : classCode? cs = some r) :
    Begins cs := by
  cases cs with
  | nil => cases h
  | cons c cs =>
    apply begins_cons
    constructor <;> rintro rfl <;> cases h

theorem begins_members (ranges : CodeSet) {body : List Char} (h : Begins body) :
    Begins (ranges.flatMap memberText ++ body) := by
  cases ranges with
  | nil => exact h
  | cons r ranges =>
    rw [List.flatMap_cons, List.append_assoc, memberText]
    split
    · exact begins_of_classCode? (classCode?_text _ _)
    · rw [List.append_assoc]
      exact begins_of_classCode? (classCode?_text _ _)

/-- The text of a member is that of its ranges, unless the member is a property. -/
theorem ClassItem.text_cases (item : ClassItem) :
    (∃ text, item = property text) ∨
      (item.sets? = some (item.ranges.map fun r => [r]) ∧ (∀ r ∈ item.ranges, r.lo ≤ r.hi) ∧
        (item = dash ∨ item.text = item.ranges.flatMap memberText)) := by
  cases item with
  | range lo hi => exact .inr ⟨rfl, fun r hr => le_of_mem_scalarRanges hr, .inr (rangeText_eq lo hi)⟩
  | dash => exact .inr ⟨rfl, List.forall_mem_singleton.2 (Nat.le_refl _), .inl rfl⟩
  | set codes =>
    refine .inr ⟨rfl, fun r hr => ?_, .inr (rangesText_eq codes)⟩
    obtain ⟨_, -, hr⟩ := List.mem_flatMap.1 hr
    exact le_of_mem_scalarRanges hr
  | property text => exact .inl ⟨text, rfl⟩

theorem begins_item {item : ClassItem} (hitem : item.IsWritten) {body : List Char}
    (h : Begins body) : Begins (item.text ++ body) := by
  rcases item.text_cases with ⟨text, rfl⟩ | ⟨-, -, rfl | htext⟩
  · obtain ⟨negated, tail, rfl, -⟩ := IsPropertyText.property? hitem
    exact begins_cons (by decide)
  · exact begins_cons (by decide)
  · rw [htext]
    exact begins_members _ h

def before (sets : List CodeSet) (read? : Option (List CodeSet × List Char)) :
    Option (List CodeSet × List Char) :=
  read?.map fun r => (sets ++ r.1, r.2)

theorem ClassReads.members {ranges : CodeSet} (hle : ∀ r ∈ ranges, r.lo ≤ r.hi) {body : List Char}
    {read? : Option (List CodeSet × List Char)} (h : ClassReads body read?) (hbody : Begins body) :
    ClassReads (ranges.flatMap memberText ++ body) (before (ranges.map fun r => [r]) read?) := by
  induction ranges with
  | nil =>
    cases read? <;> exact h
  | cons r ranges ih =>
    obtain ⟨hr, hranges⟩ := List.forall_mem_cons.1 hle
    have hrest := begins_members ranges hbody
    have hpos := List.length_pos_iff.2 (memberText_ne_nil r)
    have hlen : (memberText r ++ (ranges.flatMap memberText ++ body)).length =
        (memberText r).length + (ranges.flatMap memberText ++ body).length := List.length_append
    have hread := ClassReads.member (classMember?_text hr hrest.1) (by omega) (ih hranges)
    rw [List.flatMap_cons, List.append_assoc]
    cases read? <;> exact hread

theorem ClassReads.item {item : ClassItem} (hitem : item.IsWritten) {body : List Char}
    {read? : Option (List CodeSet × List Char)} (h : ClassReads body read?) (hbody : Begins body) :
    ClassReads (item.text ++ body) (item.sets?.bind fun sets => before sets read?) := by
  rcases item.text_cases with ⟨text, rfl⟩ | ⟨hsets, hle, rfl | htext⟩
  · obtain ⟨negated, tail, htext, -⟩ := IsPropertyText.property? hitem
    have hread := IsPropertyText.classMember? hitem body
    cases hcodes : propertyCodes? text with
    | none =>
      rw [hcodes] at hread
      rw [ClassItem.sets?, hcodes, ClassItem.text, htext]
      rw [htext] at hread
      exact .refused (by decide) hread
    | some codes =>
      rw [hcodes] at hread
      have hmember := ClassReads.member hread
        (by rw [htext]; simp only [List.cons_append, List.length_cons, List.length_append]; omega) h
      rw [ClassItem.sets?, hcodes]
      cases read? <;> exact hmember
  · have hdash : classMember? ('\\' :: '-' :: body) = some ([⟨0x2D, 0x2D⟩], body) :=
      classMember?_of_classCode? rfl hbody.1
    have hread := ClassReads.member hdash (by simp only [List.length_cons]; omega) h
    cases read? <;> exact hread
  · rw [hsets, htext]
    exact h.members hle hbody

/-- The members of a class are read as their sets, unless one is a property that is not known. -/
theorem ClassReads.items {items : List ClassItem} (hitems : ∀ i ∈ items, i.IsWritten)
    (rest : List Char) : ClassReads (items.flatMap ClassItem.text ++ ']' :: rest)
      ((setsOf? items).map fun sets => (sets, rest)) ∧
        Begins (items.flatMap ClassItem.text ++ ']' :: rest) := by
  induction items with
  | nil => exact ⟨.close rest, begins_cons (by decide)⟩
  | cons item items ih =>
    obtain ⟨hitem, hitems⟩ := List.forall_mem_cons.1 hitems
    obtain ⟨hread, hbegins⟩ := ih hitems
    rw [List.flatMap_cons, List.append_assoc]
    refine ⟨?_, begins_item hitem hbegins⟩
    have hboth := ClassReads.item hitem hread hbegins
    rw [setsOf?]
    cases hsets : item.sets? with
    | none =>
      rw [hsets] at hboth
      exact hboth
    | some sets =>
      rw [hsets] at hboth
      cases hrest : setsOf? items <;> rw [hrest] at hboth <;> exact hboth

theorem isNone_setsOf? (items : List ClassItem) :
    (setsOf? items).isNone = items.any fun i => i.sets?.isNone := by
  induction items with
  | nil => rfl
  | cons item items ih =>
    rw [List.any_cons, ← ih, setsOf?]
    cases item.sets? <;> cases setsOf? items <;> rfl

/-- Members without sets are exactly those without text. -/
theorem setsOf?_eq_nil {items : List ClassItem} (hitems : ∀ i ∈ items, i.IsWritten) :
    setsOf? items = some [] ↔ items.flatMap ClassItem.text = [] := by
  induction items with
  | nil => simp [setsOf?]
  | cons item items ih =>
    obtain ⟨hitem, hitems⟩ := List.forall_mem_cons.1 hitems
    have hsets : item.sets? = some [] ↔ item.text = [] := by
      rcases item.text_cases with ⟨text, rfl⟩ | ⟨hsets, -, rfl | htext⟩
      · obtain ⟨negated, tail, rfl, -⟩ := IsPropertyText.property? hitem
        simp [ClassItem.sets?, ClassItem.text]
      · exact iff_of_false (fun h => by cases h) (List.cons_ne_nil _ _)
      · rw [hsets, htext, List.flatMap_eq_nil_iff, Option.some.injEq, List.map_eq_nil_iff,
          List.eq_nil_iff_forall_not_mem]
        exact forall₂_congr fun r _ => iff_of_false id (memberText_ne_nil r)
    rw [List.flatMap_cons, List.append_eq_nil_iff, ← ih hitems, ← hsets, setsOf?]
    cases item.sets? <;> cases setsOf? items <;> simp

def classRead (negated : Bool) (sets : List CodeSet) (after : List Char) :
    (CodeSet × Nat) × List Char :=
  ((classChars negated sets.flatten, max 1 sets.length), after)

theorem ClassReads.class? {cs : List Char} {read? : Option (List CodeSet × List Char)}
    (h : ClassReads cs read?) (hcs : Begins cs) (hne : ∀ r, read? = some r → r.1 ≠ [])
    (negated : Bool) : Pattern.class? ((if negated then ['^'] else []) ++ cs) =
      read?.map fun r => classRead negated r.1 r.2 := by
  have hmembers := h.classMembers? (cs.length + 1) (Nat.lt_succ_self _)
  unfold Pattern.class?
  split
  next isNegated body hopening =>
  obtain ⟨rfl, rfl⟩ : isNegated = negated ∧ body = cs := by
    cases negated with
    | true => cases hopening; exact ⟨rfl, rfl⟩
    | false =>
      split at hopening
      · next heq => exact absurd (congrArg List.head? heq) hcs.2
      · cases hopening; exact ⟨rfl, rfl⟩
  rw [hmembers]
  cases read? with
  | none => rfl
  | some r =>
    obtain ⟨set, sets, hsets⟩ := List.exists_cons_of_ne_nil (hne r rfl)
    have hlevels : max 1 r.1.length = r.1.length := by
      rw [hsets, List.length_cons]
      omega
    simp only [Option.bind_eq_bind, Option.bind_some, Option.map_some, classRead, classChars,
      hlevels]
    rw [hsets]
    rfl

/-- The text of a class is read with the sets of its members, whatever follows it. -/
theorem class?_classText {items : List ClassItem} (hitems : ∀ i ∈ items, i.IsWritten)
    (negated : Bool) : ∃ cs, classText negated items = '[' :: cs ∧ ∀ after,
      Pattern.class? (cs ++ after) = (setsOf? items).map fun sets => classRead negated sets after := by
  unfold classText
  simp only [List.isEmpty_iff]
  split
  · next hempty =>
    rw [(setsOf?_eq_nil hitems).2 hempty]
    -- all characters and none are each other's complement
    have hchars : classChars negated [] = classChars (!negated) [allCodes] := by
      cases negated <;> cbv
    have hall := fun after => (classBody_all after).class? (by decide) !negated
    have hread : ∀ after, some ((classChars (!negated) [allCodes], [allCodes].length), after) =
        (some []).map fun sets => classRead negated sets after := by
      intro after
      rw [← hchars]
      rfl
    cases negated with
    | true =>
      rw [if_pos rfl, anyText_eq]
      refine ⟨_, rfl, fun after => ?_⟩
      rw [← hread, List.append_assoc]
      exact hall after
    | false =>
      rw [if_neg (by decide), noneText_eq]
      refine ⟨_, rfl, fun after => ?_⟩
      rw [← hread, List.cons_append, List.append_assoc]
      exact hall after
  · next hne =>
    refine ⟨(if negated then ['^'] else []) ++ items.flatMap ClassItem.text ++ [']'], rfl,
      fun after => ?_⟩
    obtain ⟨hreads, hbegins⟩ := ClassReads.items hitems after
    have hread := hreads.class? hbegins (fun r hr hnil => hne ?_) negated
    · rw [List.append_assoc, List.append_assoc, List.singleton_append, hread, Option.map_map]
      rfl
    · obtain ⟨sets, hsets, rfl⟩ := Option.map_eq_some_iff.1 hr
      rw [← setsOf?_eq_nil hitems, hsets, show sets = [] from hnil]

def ClassItem.names (x : Char) : ClassItem → Bool
  | range lo hi => lo ≤ x.toNat ∧ x.toNat ≤ hi
  | dash => x == '-'
  | set codes => codes.has x
  | property text => (propertyCodes? text).any fun codes => codes.has x

theorem ClassItem.has_sets {item : ClassItem} {sets : List CodeSet} (h : item.sets? = some sets)
    (x : Char) : CodeSet.has sets.flatten x = item.names x := by
  have hranges : ∀ ranges : CodeSet, (ranges.map fun r => [r]).flatten = ranges := by
    intro ranges
    rw [← List.flatMap_def, List.flatMap_singleton']
  cases item with
  | range lo hi =>
    cases h
    rw [hranges, ClassItem.ranges, names, CodeSet.has, Bool.eq_iff_iff,
      contains_scalarRanges (isScalar_toNat x), decide_eq_true_iff]
  | dash =>
    cases h
    exact has_single '-' x
  | set codes =>
    cases h
    rw [hranges, has_ranges_set, names]
  | property text =>
    obtain ⟨codes, hcodes, rfl⟩ := Option.map_eq_some_iff.1 h
    rw [names, hcodes, List.flatten_singleton]
    rfl

/-- A class has the characters that one of its members names. -/
theorem has_setsOf? {items : List ClassItem} {sets : List CodeSet} (h : setsOf? items = some sets)
    (x : Char) : CodeSet.has sets.flatten x = items.any (ClassItem.names x) := by
  induction items generalizing sets with
  | nil => cases h; rfl
  | cons item items ih =>
    rw [setsOf?] at h
    obtain ⟨first, hfirst, h⟩ := Option.bind_eq_some_iff.1 h
    obtain ⟨rest, hrest, rfl⟩ := Option.map_eq_some_iff.1 h
    rw [List.any_cons, ← ih hrest, ← ClassItem.has_sets hfirst, List.flatten_append, CodeSet.has,
      CodeSet.contains_append]
    rfl

end Members

end JsonRules.Pattern
