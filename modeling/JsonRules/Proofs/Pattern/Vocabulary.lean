import JsonRules.Pattern.Vocabulary
import JsonRules.Proofs.Pattern.Bounds
import JsonRules.Proofs.Pattern.Composition
import JsonRules.Proofs.Pattern.NonLinear

/-!
# No syntax of a matcher leaks into what is written for it

A text is `Clean` if the reader finds nothing but the vocabulary in it. The text of each token
leaves a clean text clean that it is put in front of; only a parenthesis that is taken as it stands
depends on what follows it.
-/

namespace JsonRules.Pattern

open Linear
open Text (upperHex hexDigit?)
open Unicode (CodeRange maxCode)

section Reader

variable {text cs rest other place : List Char} {c : Char}

theorem linearBoundaryText_eq :
    linearBoundaryText = '(' :: '?' :: '-' :: 'u' :: ':' :: '\\' :: 'b' :: [')'] := by decide

theorem head_boundary (h : c :: cs = linearBoundaryText ++ rest) :
    c = '(' ∧ cs.head? = some '?' := by
  rw [linearBoundaryText_eq] at h
  cases h
  exact ⟨rfl, rfl⟩

theorem not_begins_boundary (h : c = '(' → cs.head? ≠ some '?') :
    ¬ linearBoundaryText <+: c :: cs := by
  rintro ⟨rest, htext⟩
  obtain ⟨hc, hhead⟩ := head_boundary htext.symm
  exact h hc hhead

/-- The reader has one way to go on. -/
theorem Passes.unique (h : Passes cs rest) (h' : Passes cs other) : rest = other := by
  cases h with
  | boundary isBoundary =>
    cases h' with
    | boundary isBoundary' => exact List.append_cancel_left (isBoundary.symm.trans isBoundary')
    | char _ other => exact absurd ⟨_, isBoundary.symm⟩ other
    | named => cases (head_boundary isBoundary).1
    | escape => cases (head_boundary isBoundary).1
    | charClass => cases (head_boundary isBoundary).1
  | char plain other =>
    cases h' with
    | boundary isBoundary => exact absurd ⟨_, isBoundary.symm⟩ other
    | char => rfl
    | named => exact absurd rfl plain.1
    | escape => exact absurd rfl plain.1
    | charClass => exact absurd rfl plain.2
  | @named name _ closed =>
    generalize htext : '\\' :: 'k' :: '<' :: (name ++ '>' :: rest) = text at h'
    cases h' with
    | boundary isBoundary =>
      rw [← htext] at isBoundary
      cases (head_boundary isBoundary).1
    | char plain =>
      cases htext
      exact absurd rfl plain.1
    | @named name' _ closed' =>
      -- both names end at the first bracket
      have hname := congrArg (before? '>')
        (List.cons.inj (List.cons.inj (List.cons.inj htext).2).2).2
      rw [before?_append closed, before?_append closed'] at hname
      exact congrArg Prod.snd (Option.some.inj hname)
    | escape other =>
      cases htext
      exact absurd ⟨_, rfl⟩ other
    | charClass => cases htext
  | escape hother escaped =>
    cases h' with
    | boundary isBoundary => cases (head_boundary isBoundary).1
    | char plain => exact absurd rfl plain.1
    | named => exact absurd ⟨_, rfl⟩ hother
    | escape _ escaped' => exact escaped.unique escaped'
  | charClass bracketed =>
    cases h' with
    | boundary isBoundary => cases (head_boundary isBoundary).1
    | char plain => exact absurd rfl plain.2
    | charClass bracketed' => exact bracketed.unique bracketed'

theorem not_passes_nil : ¬ Passes [] rest := by
  intro h
  cases h with
  | boundary isBoundary =>
    rw [linearBoundaryText_eq] at isBoundary
    cases isBoundary

/-- A place that the reader comes to is the beginning of the text, or comes after its first step. -/
theorem Outside.first (h : Outside text place) :
    place = text ∨ ∃ rest, Passes text rest ∧ Outside rest place := by
  induction h with
  | start => exact .inl rfl
  | next _ passes ih =>
    rcases ih with rfl | ⟨mid, hfirst, hmore⟩
    · exact .inr ⟨_, passes, .start⟩
    · exact .inr ⟨mid, hfirst, hmore.next passes⟩

end Reader

section Engine

variable {place : List Char}

/-- The letters of escapes that only a matcher has. -/
def engineLetters : List Char := ['A', 'z', 'Z', '<', '>', 'G', 'K']

theorem engineMarks_form : ∀ mark ∈ engineMarks, ['(', '?'] <+: mark.toList ∨
    mark.toList ∈ engineLetters.map (['\\', ·]) := by decide

/-- No group mark begins like one of the matchers' own, or the other way round. -/
theorem groupMarks_apart : ∀ mark ∈ engineMarks, ∀ known ∈ groupMarks,
    ¬ known.toList <+: mark.toList ∧ ¬ mark.toList <+: known.toList := by decide

theorem not_escapeForm {letter : Char} (h : letter ∈ engineLetters) (rest : List Char) :
    ¬ EscapeForm (letter :: rest) := by
  intro hform
  simp only [engineLetters, List.mem_cons, List.not_mem_nil, or_false] at h
  cases hform with
  | mark isMeta => rcases h with rfl | rfl | rfl | rfl | rfl | rfl | rfl <;> cases isMeta
  | number => revert h; decide
  | backref isDigit =>
    rcases h with rfl | rfl | rfl | rfl | rfl | rfl | rfl <;> revert isDigit <;> decide
  | named => revert h; decide
  | property isProperty => rcases isProperty with rfl | rfl <;> revert h <;> decide

/-- Groups and escapes of the known forms are none that only a matcher has. -/
theorem not_beginsWith_engineMarks
    (group : ['(', '?'] <+: place → BeginsWith groupMarks place)
    (escape : ∀ cs, place = '\\' :: cs → EscapeForm cs) : ¬ BeginsWith engineMarks place := by
  rintro ⟨mark, hmark, hplace⟩
  rcases engineMarks_form mark hmark with hgroup | hescape
  · obtain ⟨known, hknown, hbegins⟩ := group (hgroup.trans hplace)
    obtain ⟨hlonger, hshorter⟩ := groupMarks_apart mark hmark known hknown
    exact (List.prefix_or_prefix_of_prefix hbegins hplace).elim hlonger hshorter
  · obtain ⟨letter, hletter, htext⟩ := List.mem_map.1 hescape
    obtain ⟨rest, rfl⟩ := hplace
    rw [← htext] at escape
    exact not_escapeForm hletter rest (escape _ rfl)

end Engine

section Clean

/-- All that the reader finds in the text is of the vocabulary, or the word boundary of the linear
matcher. -/
def Clean (dialect : Dialect) (text : List Char) : Prop :=
  ∀ place, Outside text place →
    (dialect = .linear ∧ linearBoundaryText <+: place) ∨ InVocabulary place

variable {dialect : Dialect} {text cs rest : List Char} {c : Char}

theorem Clean.nil : Clean dialect [] := by
  intro place h
  obtain rfl : place = [] :=
    h.first.resolve_right fun ⟨_, hpasses, _⟩ => not_passes_nil hpasses
  have hempty : ¬ BeginsWith engineMarks [] :=
    not_beginsWith_engineMarks (fun h => absurd h (by decide)) nofun
  exact .inr ⟨fun h => absurd h (by decide), nofun, nofun, hempty, fun h => absurd rfl h⟩

theorem Clean.of_passes
    (known : (dialect = .linear ∧ linearBoundaryText <+: text) ∨ InVocabulary text)
    (passes : Passes text rest) (more : Clean dialect rest) : Clean dialect text := by
  intro place h
  rcases h.first with rfl | ⟨mid, hpasses, hmore⟩
  · exact known
  · obtain rfl := passes.unique hpasses
    exact more place hmore

theorem Clean.boundary (more : Clean .linear rest) : Clean .linear (linearBoundaryText ++ rest) :=
  .of_passes (.inl ⟨rfl, List.prefix_append _ _⟩) (.boundary rfl) more

/-- A character that opens no special group. -/
theorem Clean.char (plain : c ≠ '\\' ∧ c ≠ '[') (opening : c = '(' → cs.head? ≠ some '?')
    (more : Clean dialect cs) : Clean dialect (c :: cs) := by
  have hpasses : Passes (c :: cs) cs := .char plain (not_begins_boundary opening)
  have hgroup : ¬ ['(', '?'] <+: c :: cs := by
    rintro ⟨rest, htext⟩
    cases htext
    exact opening rfl rfl
  have hescape : ∀ es, c :: cs = '\\' :: es → EscapeForm es :=
    fun _ h => absurd (List.cons.inj h).1 plain.1
  exact .of_passes (.inr ⟨fun h => absurd h hgroup, hescape,
    fun _ h => absurd (List.cons.inj h).1 plain.2,
    not_beginsWith_engineMarks (fun h => absurd h hgroup) hescape, fun _ => ⟨_, hpasses⟩⟩)
    hpasses more

theorem Clean.chars (h : ∀ c ∈ cs, c ∉ textMarks) (more : Clean dialect rest) :
    Clean dialect (cs ++ rest) := by
  induction cs with
  | nil => exact more
  | cons c cs ih =>
    obtain ⟨hc, hcs⟩ := List.forall_mem_cons.1 h
    have hmarks : c ≠ '\\' ∧ c ≠ '[' ∧ c ≠ '(' := by simpa [textMarks] using hc
    exact .char ⟨hmarks.1, hmarks.2.1⟩ (fun hopen => absurd hopen hmarks.2.2) (ih hcs)

/-- The opening of a group that is no plain capturing one. -/
theorem Clean.group (opening : GroupOpening) (more : Clean dialect rest) :
    Clean dialect (opening.text ++ rest) := by
  have hform : ∃ cs, opening.text = '(' :: '?' :: cs ∧ (∀ c ∈ '?' :: cs, c ∉ textMarks) ∧
      ∃ mark ∈ groupMarks, mark.toList = opening.text := by
    cases opening with
    | plain => exact ⟨[':'], rfl, by simp [textMarks], "(?:", by decide, rfl⟩
    | named => exact ⟨['P', '<'], rfl, by simp [textMarks], "(?P<", by decide, rfl⟩
    | lookahead negative =>
      cases negative with
      | false => exact ⟨['='], rfl, by simp [textMarks], "(?=", by decide, rfl⟩
      | true => exact ⟨['!'], rfl, by simp [textMarks], "(?!", by decide, rfl⟩
    | lookbehind negative =>
      cases negative with
      | false => exact ⟨['<', '='], rfl, by simp [textMarks], "(?<=", by decide, rfl⟩
      | true => exact ⟨['<', '!'], rfl, by simp [textMarks], "(?<!", by decide, rfl⟩
  obtain ⟨cs, htext, hchars, mark, hmark, hbegins⟩ := hform
  have hgroup : BeginsWith groupMarks (opening.text ++ rest) :=
    ⟨mark, hmark, hbegins ▸ List.prefix_append _ _⟩
  rw [htext] at hgroup ⊢
  have hescape : ∀ es, '(' :: '?' :: cs ++ rest = '\\' :: es → EscapeForm es := by
    intro es h
    cases h
  have hengine := not_beginsWith_engineMarks (fun _ => hgroup) hescape
  -- the boundary begins like a group for flags
  have hother : ¬ linearBoundaryText <+: '(' :: '?' :: cs ++ rest := fun h =>
    hengine ⟨"(?-", by decide, List.IsPrefix.trans (by decide) h⟩
  have hpasses : Passes ('(' :: '?' :: cs ++ rest) ('?' :: cs ++ rest) :=
    .char (by decide) hother
  refine .of_passes (.inr ⟨fun _ => hgroup, hescape, ?_, hengine, fun _ => ⟨_, hpasses⟩⟩)
    hpasses (.chars hchars more)
  intro es h
  cases h

theorem inVocabulary_escape (form : EscapeForm cs) (passes : Passes ('\\' :: cs) rest) :
    InVocabulary ('\\' :: cs) := by
  have hgroup : ¬ ['(', '?'] <+: '\\' :: cs := by
    rintro ⟨rest, htext⟩
    cases htext
  have hescape : ∀ es, '\\' :: cs = '\\' :: es → EscapeForm es :=
    fun _ h => (List.cons.inj h).2 ▸ form
  exact ⟨fun h => absurd h hgroup, hescape, nofun,
    not_beginsWith_engineMarks (fun h => absurd h hgroup) hescape, fun _ => ⟨_, passes⟩⟩

theorem Clean.escape (form : EscapeForm cs) (other : ¬ ['k', '<'] <+: cs)
    (escaped : AfterEscape cs rest) (more : Clean dialect rest) : Clean dialect ('\\' :: cs) :=
  .of_passes (.inr (inVocabulary_escape form (.escape other escaped))) (.escape other escaped) more

theorem Clean.named {name : List Char} (closed : '>' ∉ name) (more : Clean dialect rest) :
    Clean dialect ('\\' :: 'k' :: '<' :: (name ++ '>' :: rest)) :=
  .of_passes (.inr (inVocabulary_escape (.named closed) (.named closed))) (.named closed) more

theorem Clean.charClass
    (known : dotText <+: '[' :: cs ∨ ∃ rest, ClassForm cs rest ∧ ClassEnds cs rest)
    (bracketed : AfterClass cs rest) (more : Clean dialect rest) : Clean dialect ('[' :: cs) := by
  have hgroup : ¬ ['(', '?'] <+: '[' :: cs := by
    rintro ⟨rest, htext⟩
    cases htext
  have hescape : ∀ es, '[' :: cs = '\\' :: es → EscapeForm es := nofun
  exact .of_passes (.inr ⟨fun h => absurd h hgroup, hescape,
    fun _ h => (List.cons.inj h).2 ▸ known,
    not_beginsWith_engineMarks (fun h => absurd h hgroup) hescape,
    fun _ => ⟨_, .charClass bracketed⟩⟩) (.charClass bracketed) more

end Clean

section Classes

variable {cs mid rest place text more : List Char} {c : Char}

/-- A place that the reader of a class comes to is its beginning, or comes after the first step. -/
theorem InClass.first (h : InClass cs place) : place = cs ∨
    (∃ c mid, cs = c :: mid ∧ (c ≠ ']' ∧ c ≠ '\\') ∧ InClass mid place) ∨
    ∃ es mid, cs = '\\' :: es ∧ AfterEscape es mid ∧ InClass mid place := by
  induction h with
  | start => exact .inl rfl
  | char _ plain ih =>
    rcases ih with rfl | ⟨c, mid, rfl, hfirst, hmore⟩ | ⟨es, mid, rfl, hfirst, hmore⟩
    · exact .inr (.inl ⟨_, _, rfl, plain, .start⟩)
    · exact .inr (.inl ⟨c, mid, rfl, hfirst, hmore.char plain⟩)
    · exact .inr (.inr ⟨es, mid, rfl, hfirst, hmore.char plain⟩)
  | escape _ escaped ih =>
    rcases ih with rfl | ⟨c, mid, rfl, hfirst, hmore⟩ | ⟨es, mid, rfl, hfirst, hmore⟩
    · exact .inr (.inr ⟨_, _, rfl, escaped, .start⟩)
    · exact .inr (.inl ⟨c, mid, rfl, hfirst, hmore.escape escaped⟩)
    · exact .inr (.inr ⟨es, mid, rfl, hfirst, hmore.escape escaped⟩)

theorem setMarks_form : ∀ mark ∈ setMarks, mark.toList.head? ∈ ['[', '&', '~'].map some ∨
    mark.toList = ['-', '-'] := by decide

/-- The characters that syntax for sets begins with. -/
theorem head_setMarks (h : BeginsWith setMarks (c :: cs)) :
    c ∈ ['[', '&', '~'] ∨ (c = '-' ∧ cs.head? = some '-') := by
  obtain ⟨mark, hmark, rest, htext⟩ := h
  rcases setMarks_form mark hmark with hset | hdash
  · obtain ⟨d, hd, hhead⟩ := List.mem_map.1 hset
    obtain ⟨tail, hmark⟩ := List.head?_eq_some_iff.1 hhead.symm
    rw [hmark] at htext
    cases htext
    exact .inl hd
  · rw [hdash] at htext
    cases htext
    exact .inr ⟨rfl, rfl⟩

theorem ClassEnds.close : ClassEnds (']' :: rest) rest := by
  refine ⟨.close, fun place h => ?_⟩
  obtain rfl : place = ']' :: rest := by
    rcases h.first with rfl | ⟨_, _, heq, plain, -⟩ | ⟨_, _, heq, -⟩
    · rfl
    · cases heq
      exact absurd rfl plain.1
    · cases heq
  exact fun hmark => absurd (head_setMarks hmark) (by simp)

/-- The characters of a class that do not end it and begin no syntax for sets; a `-` may. -/
def classMarks : List Char := [']', '\\', '[', '&', '~']

theorem ClassEnds.char (plain : c ∉ classMarks) (dash : c = '-' → cs.head? ≠ some '-')
    (more : ClassEnds cs rest) : ClassEnds (c :: cs) rest := by
  have hplain : c ≠ ']' ∧ c ≠ '\\' ∧ c ∉ ['[', '&', '~'] := by
    simpa [classMarks] using plain
  refine ⟨.char ⟨hplain.1, hplain.2.1⟩ more.closes, fun place h => ?_⟩
  rcases h.first with rfl | ⟨_, _, heq, -, hplace⟩ | ⟨_, _, heq, -⟩
  · intro hmark
    rcases head_setMarks hmark with hset | ⟨hdash, hhead⟩
    · exact hplain.2.2 hset
    · exact dash hdash hhead
  · cases heq
    exact more.noSets place hplace
  · cases heq
    exact absurd rfl hplain.2.1

theorem ClassEnds.escape (escaped : AfterEscape cs mid) (more : ClassEnds mid rest) :
    ClassEnds ('\\' :: cs) rest := by
  refine ⟨.escape escaped more.closes, fun place h => ?_⟩
  rcases h.first with rfl | ⟨_, _, heq, plain, -⟩ | ⟨_, _, heq, escaped', hplace⟩
  · exact fun hmark => absurd (head_setMarks hmark) (by simp)
  · cases heq
    exact absurd rfl plain.2
  · cases heq
    obtain rfl := escaped.unique escaped'
    exact more.noSets place hplace

theorem ClassEnds.chars (h : ∀ c ∈ cs, c ∉ '-' :: classMarks) (more : ClassEnds mid rest) :
    ClassEnds (cs ++ mid) rest := by
  induction cs with
  | nil => exact more
  | cons c cs ih =>
    obtain ⟨hc, hcs⟩ := List.forall_mem_cons.1 h
    obtain ⟨hdash, hplain⟩ := not_or.1 (mt List.mem_cons.2 hc)
    exact .char hplain (fun heq => absurd heq hdash) (ih hcs)

theorem not_mark_of_mem_upperHex {n : Nat} (h : c ∈ upperHex n) :
    c ∉ '-' :: classMarks ∧ c ∉ textMarks := by
  obtain ⟨d, hd, rfl⟩ := List.mem_map.1 h
  obtain ⟨k, hk, rfl⟩ := Text.mem_toDigits (by decide) hd
  have hdigits : ∀ k < 16, (Nat.digitChar k).toUpper ∉ '-' :: classMarks ∧
      (Nat.digitChar k).toUpper ∉ textMarks := by decide
  exact hdigits k hk

theorem ClassCharText.ends (h : ClassCharText text) (more : ClassEnds cs rest) :
    ClassEnds (text ++ cs) rest := by
  cases h with
  | @plain c isWord =>
    refine .chars (List.forall_mem_singleton.2 ?_) more
    simp only [classMarks, List.mem_cons, List.not_mem_nil, or_false]
    rintro (rfl | rfl | rfl | rfl | rfl | rfl) <;> revert isWord <;> decide
  | number c =>
    have hnumber : ClassEnds ('{' :: (upperHex c.toNat ++ ('}' :: cs))) rest :=
      .char (by decide) nofun (.chars (fun d hd => (not_mark_of_mem_upperHex hd).1)
        (.char (by decide) nofun more))
    have htext : hexText c.toNat ++ cs = '\\' :: 'x' :: '{' :: (upperHex c.toNat ++ '}' :: cs) := by
      simp [hexText]
    rw [htext]
    exact .escape (.char (by decide)) hnumber

theorem ClassCharText.head (h : ClassCharText text) (cs : List Char) :
    (text ++ cs).head? ≠ some '-' := by
  cases h with
  | plain isWord =>
    rintro heq
    cases heq
    revert isWord
    decide
  | number c => exact fun heq => by cases heq

/-- An escape ends where it ends alone. -/
theorem AfterEscape.append (h : AfterEscape cs rest) (more : List Char) :
    AfterEscape (cs ++ more) (rest ++ more) := by
  cases h with
  | char plain => exact .char plain
  | named isProperty closed =>
    rw [List.cons_append, List.cons_append, List.append_assoc]
    exact .named isProperty closed
  | short isProperty unnamed => exact .short isProperty unnamed

theorem ClassMemberText.ends (h : ClassMemberText text) (more : ClassEnds cs rest) :
    ClassEnds (text ++ cs) rest := by
  cases h with
  | one isChar => exact isChar.ends more
  | range first last =>
    rw [List.append_assoc]
    exact first.ends (.char (by decide) (fun _ => last.head cs) (last.ends more))
  | dash => exact .escape (.char (by decide)) more
  | property isProperty escaped => exact .escape (escaped.append cs) more

theorem ClassEnds.members {members : List (List Char)} (h : ∀ m ∈ members, ClassMemberText m)
    (more : ClassEnds cs rest) : ClassEnds (members.flatten ++ cs) rest := by
  induction members with
  | nil => exact more
  | cons m members ih =>
    obtain ⟨hm, hmembers⟩ := List.forall_mem_cons.1 h
    rw [List.flatten_cons, List.append_assoc]
    exact hm.ends (ih hmembers)

def memberClass (negated : Bool) (members : List (List Char)) : List Char :=
  '[' :: ((if negated then ['^'] else []) ++ members.flatten ++ [']'])

theorem Clean.members {dialect : Dialect} (negated : Bool) {members : List (List Char)}
    (nonempty : members ≠ []) (h : ∀ m ∈ members, ClassMemberText m)
    (more : Clean dialect rest) : Clean dialect (memberClass negated members ++ rest) := by
  have hends : ClassEnds ((if negated then ['^'] else []) ++ (members.flatten ++ ']' :: rest))
      rest := by
    cases negated with
    | false => exact .members h .close
    | true => exact .char (by decide) nofun (.members h .close)
  have hform : ClassForm ((if negated then ['^'] else []) ++ members.flatten ++ ']' :: rest) rest :=
    .members negated nonempty h
  rw [memberClass, List.cons_append, List.append_assoc, List.singleton_append]
  rw [← List.append_assoc] at hends
  exact .charClass (.inr ⟨rest, hform, hends⟩) hends.closes more

end Classes

section Members

theorem classCharText_code {code : Nat} (h : IsScalar code) :
    ClassCharText (classCodeText code) := by
  rw [classCodeText]
  split
  · next hword => exact .plain hword.2
  · have hnumber := ClassCharText.number (Char.ofNat code)
    rwa [toNat_ofNat h] at hnumber

theorem classMemberText_range {r : CodeRange} (h : OneSided r) :
    ClassMemberText (memberText r) := by
  have hscalar : IsScalar r.lo ∧ IsScalar r.hi := by
    simp only [OneSided, IsScalar] at *
    omega
  rw [memberText]
  split
  · exact .one (classCharText_code hscalar.1)
  · exact .range (classCharText_code hscalar.1) (classCharText_code hscalar.2)

theorem classMemberText_all : ClassMemberText (memberText allCodes) :=
  .range (.number (Char.ofNat 0)) (.number (Char.ofNat maxCode))

theorem IsPropertyText.escaped {text : List Char} (h : IsPropertyText text) :
    ∃ letter cs, text = '\\' :: letter :: cs ∧ (letter = 'p' ∨ letter = 'P') ∧
      AfterEscape (letter :: cs) [] := by
  have hletter : ∀ negated, propertyLetter negated = 'p' ∨ propertyLetter negated = 'P' := by
    decide
  cases h with
  | braced negated closed => exact ⟨_, _, rfl, hletter negated, .named (hletter negated) closed⟩
  | short negated unnamed => exact ⟨_, _, rfl, hletter negated, .short (hletter negated) unnamed⟩

theorem exists_members {item : ClassItem} (written : item.IsWritten) (bounded : item.IsBounded) :
    ∃ members : List (List Char), (∀ m ∈ members, ClassMemberText m) ∧
      item.text = members.flatten := by
  rcases item.text_cases with ⟨text, rfl⟩ | ⟨-, -, rfl | htext⟩
  · obtain ⟨letter, cs, rfl, isProperty, escaped⟩ := IsPropertyText.escaped written
    exact ⟨[_], List.forall_mem_singleton.2 (.property isProperty escaped),
      (List.flatten_singleton ..).symm⟩
  · exact ⟨[_], List.forall_mem_singleton.2 .dash, rfl⟩
  · refine ⟨item.ranges.map memberText, List.forall_mem_map.2 fun r hr => ?_, ?_⟩
    · exact classMemberText_range (ClassItem.oneSided_ranges bounded r hr)
    · rw [htext, List.flatMap_def]

theorem exists_members_of_items {items : List ClassItem} (written : ∀ i ∈ items, i.IsWritten)
    (bounded : ∀ i ∈ items, i.IsBounded) :
    ∃ members : List (List Char), (∀ m ∈ members, ClassMemberText m) ∧
      items.flatMap ClassItem.text = members.flatten := by
  induction items with
  | nil => exact ⟨[], List.forall_mem_nil _, rfl⟩
  | cons item items ih =>
    obtain ⟨hitem, hitems⟩ := List.forall_mem_cons.1 written
    obtain ⟨bitem, bitems⟩ := List.forall_mem_cons.1 bounded
    obtain ⟨first, hfirst, htext⟩ := exists_members hitem bitem
    obtain ⟨more, hmore, hrest⟩ := ih hitems bitems
    refine ⟨first ++ more, List.forall_mem_append.2 ⟨hfirst, hmore⟩, ?_⟩
    rw [List.flatMap_cons, htext, hrest, List.flatten_append]

/-- A class is written with members of the known forms; where nothing is left of them, with the
range of all code points. -/
theorem classText_members {items : List ClassItem} (written : ∀ i ∈ items, i.IsWritten)
    (bounded : ∀ i ∈ items, i.IsBounded) (negated : Bool) :
    ∃ negated' members, members ≠ [] ∧ (∀ m ∈ members, ClassMemberText m) ∧
      classText negated items = memberClass negated' members := by
  obtain ⟨members, hmembers, htext⟩ := exists_members_of_items written bounded
  rw [classText, htext]
  simp only [List.isEmpty_iff]
  split
  · refine ⟨!negated, [memberText allCodes], List.cons_ne_nil _ _,
      List.forall_mem_singleton.2 classMemberText_all, ?_⟩
    cases negated with
    | false =>
      rw [if_neg (by decide), noneText_eq]
      simp [memberClass]
    | true =>
      rw [if_pos rfl, anyText_eq]
      simp [memberClass]
  · next hne =>
    refine ⟨negated, members, fun hnil => hne (by rw [hnil, List.flatten_nil]), hmembers, ?_⟩
    rw [memberClass, List.cons_append, List.cons_append]

theorem setText_members (negated : Bool) (named : NamedSet) :
    ∃ members, members ≠ [] ∧ (∀ m ∈ members, ClassMemberText m) ∧
      setText negated named.codes = memberClass negated members := by
  have hwritten : (ClassItem.set named.codes).IsWritten := trivial
  obtain ⟨members, hmembers, htext⟩ := exists_members hwritten (bounded_codes named false)
  have htext : rangesText named.codes = members.flatten := htext
  refine ⟨members, ?_, hmembers, ?_⟩
  · rintro rfl
    revert htext
    cases named <;> decide
  · rw [setText, htext, memberClass, List.cons_append, List.cons_append]

end Members

section Tokens

variable {dialect : Dialect} {rest : List Char}

theorem Clean.set (negated : Bool) (named : NamedSet) (more : Clean dialect rest) :
    Clean dialect (setText negated named.codes ++ rest) := by
  obtain ⟨members, hne, hmembers, htext⟩ := setText_members negated named
  rw [htext]
  exact .members negated hne hmembers more

def wordLook (opening : GroupOpening) : List Char :=
  opening.text ++ (setText false NamedSet.word.codes ++ [')'])

theorem Clean.wordLook (opening : GroupOpening) (more : Clean dialect rest) :
    Clean dialect (Pattern.wordLook opening ++ rest) := by
  rw [Pattern.wordLook, List.append_assoc, List.append_assoc]
  exact .group opening (.set false .word (.char (by decide) nofun more))

def sidesText (a b c d : GroupOpening) : List Char :=
  GroupOpening.plain.text ++ (wordLook a ++ (wordLook b ++
    ('|' :: (wordLook c ++ (wordLook d ++ [')'])))))

theorem Clean.sides (a b c d : GroupOpening) (more : Clean dialect rest) :
    Clean dialect (sidesText a b c d ++ rest) := by
  have hlast : Clean dialect (')' :: rest) := .char (by decide) nofun more
  have hbar : Clean dialect ('|' :: (Pattern.wordLook c ++ (Pattern.wordLook d ++ ')' :: rest))) :=
    .char (by decide) nofun (.wordLook c (.wordLook d hlast))
  have hclean := Clean.group .plain (.wordLook a (.wordLook b hbar))
  rw [sidesText]
  simpa only [List.append_assoc, List.cons_append, List.nil_append] using hclean

theorem boundaryText_eq : boundaryText = sidesText (.lookbehind false) (.lookahead true)
    (.lookbehind true) (.lookahead false) := by decide +kernel

theorem noBoundaryText_eq : noBoundaryText = sidesText (.lookbehind false) (.lookahead false)
    (.lookbehind true) (.lookahead true) := by decide +kernel

theorem Clean.dot (more : Clean dialect rest) : Clean dialect (dotText ++ rest) := by
  have hsides : ∀ r ∈ lineSeparators, OneSided r := by simp [lineSeparators, OneSided, maxCode]
  have hmembers : ∀ m ∈ lineSeparators.map memberText, ClassMemberText m :=
    List.forall_mem_map.2 fun r hr => classMemberText_range (hsides r hr)
  have hclose : ClassEnds (']' :: rest) rest := .close
  have hends := (ClassEnds.members hmembers hclose).closes
  rw [← List.flatMap_def] at hends
  have hprefix : dotText <+: dotText ++ rest := List.prefix_append _ _
  have htext : dotText ++ rest = '[' :: '^' :: '\\' :: 'n' :: '\\' :: 'r' ::
      (lineSeparators.flatMap memberText ++ ']' :: rest) := by
    simp [dotText_eq]
  rw [htext] at hprefix ⊢
  exact .charClass (.inl hprefix) (.char (by decide)
    (.escape (.char (by decide)) (.escape (.char (by decide)) hends))) more

theorem not_named {c : Char} (h : c ≠ 'k') (cs : List Char) : ¬ ['k', '<'] <+: c :: cs := by
  rintro ⟨rest, htext⟩
  cases htext
  exact h rfl

theorem Clean.number {code : Nat} (h : IsScalar code) (more : Clean dialect rest) :
    Clean dialect (hexText code ++ rest) := by
  have hform := EscapeForm.number (Char.ofNat code) rest
  rw [toNat_ofNat h] at hform
  have hdigits : Clean dialect ('{' :: (upperHex code ++ '}' :: rest)) :=
    .char (by decide) nofun (.chars (fun c hc => (not_mark_of_mem_upperHex hc).2)
      (.char (by decide) nofun more))
  have htext : hexText code ++ rest = '\\' :: 'x' :: '{' :: (upperHex code ++ '}' :: rest) := by
    simp [hexText]
  rw [htext]
  exact .escape hform (not_named (by decide) _) (.char (by decide)) hdigits

theorem Clean.code {code : Nat} (h : code ≤ maxCode) (more : Clean dialect rest) :
    Clean dialect (codeText code ++ rest) := by
  have hmeta : ∀ c ∈ ['k', 'p', 'P'], isMeta c = false := by simp [isMeta]
  have hform := codeForm code
  generalize codeText code = text at hform
  cases hform with
  | surrogate =>
    have hnone : noneText = memberClass true [memberText allCodes] := by
      rw [noneText_eq]
      simp [memberClass]
    rw [hnone]
    exact .members true (List.cons_ne_nil _ _)
      (List.forall_mem_singleton.2 classMemberText_all) more
  | number hscalar =>
    refine .number ?_ more
    simp only [isSurrogate, isHighSurrogate, isLowSurrogate, Bool.or_eq_false_iff,
      Bool.and_eq_false_iff, decide_eq_false_iff_not] at hscalar
    unfold IsScalar
    omega
  | @escaped c isMeta =>
    have hne : ∀ d ∈ ['k', 'p', 'P'], c ≠ d := fun d hd heq =>
      absurd ((hmeta d hd).symm.trans (heq ▸ isMeta)) (by decide)
    exact .escape (.mark isMeta) (not_named (hne 'k' (by decide)) _)
      (.char ⟨hne 'p' (by decide), hne 'P' (by decide)⟩) more
  | @plain c isPlain =>
    have hmarks : ∀ d ∈ textMarks, isMeta d = true := by simp [textMarks, isMeta]
    exact .chars (List.forall_mem_singleton.2 fun hmark =>
      absurd (isPlain.symm.trans (hmarks c hmark)) (by decide)) more

theorem not_mark_of_isDigit {c : Char} (h : c.isDigit = true) : c ∉ textMarks := by
  simp only [textMarks, List.mem_cons, List.not_mem_nil, or_false]
  rintro (rfl | rfl | rfl) <;> cases h

theorem Clean.backref {digits : List Char} {d : Char} (hfirst : '1' ≤ d ∧ d ≤ '9')
    (hdigits : ∀ c ∈ digits, c.isDigit = true) (more : Clean dialect rest) :
    Clean dialect ('\\' :: d :: (digits ++ rest)) := by
  have hne : d ≠ 'k' ∧ d ≠ 'p' ∧ d ≠ 'P' := by
    refine ⟨?_, ?_, ?_⟩ <;> rintro rfl <;> revert hfirst <;> decide
  exact .escape (.backref hfirst) (not_named hne.1 _) (.char hne.2)
    (.chars (fun c hc => not_mark_of_isDigit (hdigits c hc)) more)

theorem Clean.property {text : List Char} (h : IsPropertyText text) (more : Clean dialect rest) :
    Clean dialect (text ++ rest) := by
  obtain ⟨letter, cs, rfl, isProperty, escaped⟩ := h.escaped
  have hends := escaped.append rest
  have hne : letter ≠ 'k' := by
    rintro rfl
    revert isProperty
    decide
  exact .escape (.property isProperty hends) (not_named hne _) hends more

/-- The text of a token keeps what stands behind it clean. -/
theorem Clean.token {t : Token} (scanned : t.IsScanned) (bounded : t.IsBounded)
    (hopen : t = .raw '(' → rest.head? ≠ some '?') (more : Clean dialect rest) :
    Clean dialect (t.text dialect ++ rest) := by
  cases t with
  | raw c => exact .char scanned (fun heq => hopen (heq ▸ rfl)) more
  | bracket => exact .escape (.mark rfl) (not_named (by decide) _) (.char (by decide)) more
  | dot => exact .dot more
  | group opening => exact .group opening more
  | set named negated => exact .set negated named more
  | boundary negated =>
    cases negated with
    | true =>
      rw [Token.text, noBoundaryText_eq]
      exact .sides _ _ _ _ more
    | false =>
      cases dialect with
      | linear => exact .boundary more
      | backtracking =>
        rw [Token.text, boundaryText_eq]
        exact .sides _ _ _ _ more
  | backref digits =>
    obtain ⟨d, digits, rfl, hfirst⟩ := bounded
    exact .backref hfirst (List.forall_mem_cons.1 scanned.2).2 more
  | namedBackref name =>
    obtain ⟨inner, closed, rfl⟩ := scanned
    have hclean := Clean.named closed more
    rw [Token.text]
    simpa using hclean
  | property text => exact .property scanned more
  | code n => exact .code bounded more
  | charClass negated items =>
    obtain ⟨negated', members, hne, hmembers, htext⟩ := classText_members scanned bounded negated
    rw [Token.text, htext]
    exact .members negated' hne hmembers more

theorem clean_of_scanned {ts : List Token} (scanned : Scanned ts)
    (bounded : ∀ t ∈ ts, t.IsBounded) : Clean dialect (ts.flatMap (Token.text dialect)) := by
  induction ts with
  | nil => exact .nil
  | cons t ts ih =>
    obtain ⟨ht, hopen, hts⟩ := scanned
    obtain ⟨bt, bts⟩ := List.forall_mem_cons.1 bounded
    exact .token ht bt (fun heq => head_flatMap_text dialect hts (hopen heq)) (ih hts bts)

end Tokens

/-- Whatever the source, the reader finds nothing but the vocabulary in what is written for a
matcher, and reads it to its end. The word boundary of the linear matcher is the one exception. -/
theorem outside_of_render {source : String} {dialect : Dialect} {r : Rendering}
    (h : render source dialect = .ok r) : ∀ place, Outside r.text place →
      (dialect = .linear ∧ linearBoundaryText <+: place) ∨ InVocabulary place := by
  obtain ⟨ts, hscan, rfl⟩ := render_eq_ok.1 h
  exact clean_of_scanned (scanned_of_scan hscan) (isBounded_of_scan hscan)

/-- A `-` behind a set is written with a backslash. -/
theorem outside_of_render_class :
    render "a[^\\d-]" .linear = .ok ⟨"a[^0-9\\-]".toList, false⟩ ∧
    InVocabulary "[^0-9\\-]".toList := by
  have hrender : render "a[^\\d-]" .linear = .ok ⟨"a[^0-9\\-]".toList, false⟩ := by
    decide +kernel
  have hplace : Outside "a[^0-9\\-]".toList "[^0-9\\-]".toList :=
    .next .start (.char (by decide) (by decide))
  exact ⟨hrender, (outside_of_render hrender _ hplace).resolve_left (by decide)⟩

end JsonRules.Pattern
