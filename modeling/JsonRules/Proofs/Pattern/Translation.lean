import JsonRules.Pattern
import JsonRules.Proofs.Pattern.Linear.Parts

/-!
# Patterns keep their meaning

A pattern that neither looks around nor refers back is compiled for the linear matcher, and matches
exactly the texts in which it occurs. It is refused only for a count or a name that the matcher does
not read, for its depth, or for its size.

Negated classes that name both U+D7FF and U+E000 are the exception: they match these two characters.
-/

namespace JsonRules.Pattern

open Linear
open Unicode (CodeRange CodeSet)

namespace Source

theorem not_backtracks {l : Level} (s : Source l) : s.tokens.any Token.backtracks = false := by
  have hraws : ∀ cs : List Char, (cs.map Token.raw).any Token.backtracks = false := by
    intro cs
    rw [List.any_map, List.any_eq_false]
    exact fun _ _ => Bool.false_ne_true
  induction s with
  | char c => cases c <;> rfl
  | group kind body ih =>
    have hkind : kind.tokens.any Token.backtracks = false := by
      cases kind with
      | capturing => rfl
      | plain => rfl
      | named name =>
        rw [GroupKind.tokens, List.any_cons, List.any_append, hraws]
        rfl
    rw [tokens, List.any_append, List.any_append, hkind, ih]
    rfl
  | assertion a => cases a <;> rfl
  | once a ih => exact ih
  | repeated a q reluctant ih => rw [tokens, List.any_append, ih, hraws]; rfl
  | empty => rfl
  | seq t more iht ihmore => rw [tokens, List.any_append, iht, ihmore]; rfl
  | last a ih => exact ih
  | alt a more iha ihmore => rw [tokens, List.any_append, List.any_cons, iha, ihmore]; rfl

/-- A pattern is written for the linear matcher. -/
theorem render_text {s : Source .disjunction} (hd : s.Delimited []) :
    render (String.ofList s.text) .linear = .ok ⟨s.rendered, false⟩ := by
  have hscan : Token.scan s.text = .ok s.tokens := by
    have htokens : Token.scan (s.text ++ []) = (Token.scan []).map (s.tokens ++ ·) := s.tokenText hd
    rw [List.append_nil] at htokens
    rw [htokens, Token.scan]
    exact congrArg Except.ok (List.append_nil _)
  rw [render, String.toList_ofList, hscan]
  exact congrArg Except.ok (congrArg (Rendering.mk s.rendered) s.not_backtracks)

def isAccepted (limits : PatternLimits) (s : Source .disjunction) : Bool :=
  s.isReadable && s.part.levels ≤ nestLimit && s.part.regex.fits limits.size

/-- A pattern is compiled to its expression, or refused by the matcher. -/
theorem compile_text (limits : PatternLimits) {s : Source .disjunction} (hd : s.Delimited [])
    (hn : s.names.Nodup) : Pattern.compile limits (String.ofList s.text) =
      if s.isAccepted limits then .ok ⟨String.ofList s.text, .linear s.part.regex⟩
      else .error .refused := by
  have hlexemes : LexemeText s.rendered s.isReadable s.lexemes [] := s.lexemeText (.inr nofun)
  have hscan := hlexemes.scan
  have hmatcher : Matcher.linear? limits s.rendered =
      if s.isAccepted limits then some (.linear s.part.regex) else none := by
    rw [Matcher.linear?, Regex.ofText?, hscan, isAccepted]
    cases s.isReadable with
    | false => rfl
    | true =>
      by_cases hlevels : s.part.levels ≤ nestLimit
      · simp [s.parse?_lexemes hn, hlevels]
      · simp [s.parse?_lexemes hn, hlevels]
  unfold Pattern.compile
  rw [render_text hd]
  simp only [bind, Except.bind, pure, Except.pure, Bool.false_eq_true, if_false]
  rw [hmatcher]
  cases s.isAccepted limits <;> rfl

end Source

/-- A pattern that is not refused matches exactly the texts in which it occurs, apart from the two
characters that classes around the surrogates take. It is refused only by the linear matcher, never
for an error in the pattern itself. -/
theorem isMatch_compile_text (limits : PatternLimits) (s : Source .disjunction)
    (hd : s.Delimited []) (hn : s.names.Nodup) :
    (Pattern.compile limits (String.ofList s.text) = .error .refused ∧
        s.isAccepted limits = false) ∨
      ∃ p, Pattern.compile limits (String.ofList s.text) = .ok p ∧ s.isAccepted limits = true ∧
        ∀ text, ∃ b, p.isMatch text = .ok b ∧
          (b = true ↔ s.OccursBy CharSource.Takes text.toList) ∧
          (¬ s.Straddles → (b = true ↔ s.Occurs text.toList)) := by
  rw [s.compile_text limits hd hn]
  cases s.isAccepted limits with
  | false => exact .inl ⟨rfl, rfl⟩
  | true =>
    refine .inr ⟨_, rfl, rfl, fun text => ⟨_, rfl, s.isMatch_part text.toList, fun hc => ?_⟩⟩
    exact (s.isMatch_part text.toList).trans (s.occursBy_takes hc text.toList)

/-- The pattern `^(?<id>[^a-f]{2,3})?$`. -/
def optionalId : Source .disjunction :=
  let others : CharClass := ⟨true, false, [.range (.raw 'a' (by decide)) (.raw 'f' (by decide))
    (by decide)], false, .inl rfl⟩
  let digit (c : Char) (h : c.isDigit = true) : Digits :=
    ⟨[c], List.cons_ne_nil _ _, List.forall_mem_singleton.2 h⟩
  let twoOrThree : Quantifier := .between (digit '2' rfl) (digit '3' rfl) (by decide)
  let id : GroupKind := .named ⟨'i', ['d'], by decide, List.forall_mem_singleton.2 (by decide)⟩
  .last (.seq (.assertion .start) (.seq (.repeated (.group id
    (.last (.seq (.repeated (.char (.cls others)) twoOrThree false) .empty))) .optional false)
    (.seq (.assertion .stop) .empty)))

theorem isMatch_optionalId : String.ofList optionalId.text = "^(?<id>[^a-f]{2,3})?$" ∧
    ∃ p, Pattern.compile .default (String.ofList optionalId.text) = .ok p ∧
      ∀ text, ∃ b, p.isMatch text = .ok b ∧ (b = true ↔ optionalId.Occurs text.toList) := by
  have hd : optionalId.Delimited [] := by
    simp [optionalId, Source.Delimited, CharSource.Delimited, CharClass.Delimited,
      MembersDelimited, ClassMember.Ends, ClassCode.Ends]
  have hc : ¬ optionalId.Straddles := by
    simp [optionalId, Source.Straddles, CharSource.Straddles, CharClass.Straddles]
    decide
  have haccepted : optionalId.isAccepted .default = true := by cbv
  refine ⟨by decide, ?_⟩
  rcases isMatch_compile_text .default optionalId hd (by decide) with
    ⟨-, hrefused⟩ | ⟨p, hp, -, hmatch⟩
  · exact absurd (hrefused.symm.trans haccepted) (by decide)
  · refine ⟨p, hp, fun text => ?_⟩
    obtain ⟨b, hb, -, hoccurs⟩ := hmatch text
    exact ⟨b, hb, hoccurs hc⟩

/-- The pattern `^[^\uD000-\uE010]$`. -/
def outsideRange : Source .disjunction :=
  let digit (c : Char) (h : (Text.hexDigit? c).isSome = true) : HexDigit := ⟨c, h⟩
  let lo : List HexDigit := [digit 'D' rfl, digit '0' rfl, digit '0' rfl, digit '0' rfl]
  let hi : List HexDigit := [digit 'E' rfl, digit '0' rfl, digit '1' rfl, digit '0' rfl]
  let cls : CharClass := ⟨true, false, [.range (.escape (.unit lo rfl)) (.escape (.unit hi rfl))
    (by decide)], false, .inl rfl⟩
  .last (.seq (.assertion .start) (.seq (.once (.char (.cls cls)))
    (.seq (.assertion .stop) .empty)))

theorem part_outsideRange : outsideRange.part.regex = .seq (.assert .start)
    (.seq (.set [⟨0, 0xCFFF⟩, ⟨0xD7FF, 0xE000⟩, ⟨0xE011, 0x10FFFF⟩]) (.assert .stop)) := by
  have hsorted : List.mergeSort [⟨0xD000, 0xD7FF⟩, ⟨0xE000, 0xE010⟩]
      (fun a b : CodeRange => decide (a.lo ≤ b.lo)) =
        [⟨0xD000, 0xD7FF⟩, ⟨0xE000, 0xE010⟩] := List.mergeSort_of_pairwise (by decide)
  have hranges : CodeSet.ofRanges [⟨0xD000, 0xD7FF⟩, ⟨0xE000, 0xE010⟩] =
      [⟨0xD000, 0xD7FF⟩, ⟨0xE000, 0xE010⟩] := congrArg CodeSet.join hsorted
  have hchars : classChars true [⟨0xD000, 0xD7FF⟩, ⟨0xE000, 0xE010⟩] =
      [⟨0, 0xCFFF⟩, ⟨0xD7FF, 0xE000⟩, ⟨0xE011, 0x10FFFF⟩] := by
    rw [classChars, if_pos rfl, hranges]
    decide
  rw [← hchars]
  rfl

/-- The pattern of a negated class matches a character that is one of its members. -/
theorem isMatch_outsideRange : String.ofList outsideRange.text = "^[^\\uD000-\\uE010]$" ∧
    ¬ outsideRange.Occurs "\uD7FF".toList ∧
      ∃ p, Pattern.compile .default (String.ofList outsideRange.text) = .ok p ∧
        p.isMatch "\uD7FF" = .ok true := by
  have hd : outsideRange.Delimited [] := by
    refine ⟨trivial, ⟨⟨?_, trivial⟩, trivial, trivial⟩⟩
    exact fun h => absurd h (by decide)
  refine ⟨by decide, ?_, ?_⟩
  · rintro ⟨i, j, hi, x, ⟨rfl, hstart⟩, y, ⟨rfl, c, hc, hadmits⟩, -⟩
    obtain rfl : i = 0 := beq_iff_eq.1 hstart
    obtain rfl : c = '\uD7FF' := (Option.some.inj hc).symm
    exact absurd hadmits (by decide)
  · refine ⟨⟨String.ofList outsideRange.text, .linear outsideRange.part.regex⟩, ?_, ?_⟩
    · have haccepted : outsideRange.isAccepted .default = true := by
        rw [Source.isAccepted, part_outsideRange]
        decide
      rw [Source.compile_text _ hd (by decide), if_pos haccepted]
    · have hmatch : outsideRange.part.regex.isMatch "\uD7FF".toList = true := by
        rw [part_outsideRange]
        decide
      exact congrArg Except.ok hmatch

end JsonRules.Pattern
