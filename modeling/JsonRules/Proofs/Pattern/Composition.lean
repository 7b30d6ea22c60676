import JsonRules.Proofs.Pattern.Splitting

/-!
# Patterns made of patterns

Two patterns with a bar between them are written as what each of them is written as, with a bar
between, and a pattern in a group as what it is written as, in a group. The scanner looks ahead for
digits, letters, a low surrogate, a name or a question mark. What a bar or a closing parenthesis
follows is therefore read as it is at the end of a text: this is the shape of all lemmas here, from
the digits of an escape to the pattern.
-/

namespace JsonRules.Pattern

open Text (hexDigit?)

/-- No part of a pattern goes on with the character. -/
structure Separates (c : Char) : Prop where
  noHex : hexDigit? c = none
  noDigit : c.isDigit = false
  noAlpha : c.isAlpha = false
  noMark : c ≠ '\\' ∧ c ≠ '<' ∧ c ≠ '?'

theorem separates_bar : Separates '|' := ⟨rfl, rfl, rfl, by decide⟩

theorem separates_parenthesis : Separates ')' := ⟨rfl, rfl, rfl, by decide⟩

section Delimited

variable {cs : List Char}

theorem bracedHex?_append {digits code : Nat} {r : Nat × List Char}
    (h : bracedHex? digits code cs = some r) (ds : List Char) :
    bracedHex? digits code (cs ++ ds) = some (r.1, r.2 ++ ds) := by
  induction cs generalizing digits code with
  | nil => cases h
  | cons c cs ih =>
    rw [bracedHex?] at h
    rw [List.cons_append, bracedHex?]
    split at h
    · next hclose =>
      rw [if_pos hclose]
      split at h
      · next hsome =>
        cases h
        rw [if_pos hsome]
      · cases h
    · next hopen =>
      rw [if_neg hopen]
      obtain ⟨d, hd, h⟩ := Option.bind_eq_some_iff.1 h
      rw [hd, Option.bind_some]
      split at h
      · cases h
      · next hle =>
        obtain ⟨count, hcount, h⟩ := Option.bind_eq_some_iff.1 h
        rw [if_neg hle, hcount, Option.bind_some]
        exact ih h

theorem PropertyReads.append {letter : Char} {text rest : List Char}
    (h : PropertyReads letter cs text rest) (ds : List Char) :
    PropertyReads letter (cs ++ ds) text (rest ++ ds) := by
  cases h with
  | @braced name rest closed =>
    rw [List.cons_append, List.append_assoc]
    exact .braced closed
  | short plain => exact .short plain

theorem groupOpening_append {r : GroupOpening × List Char} (h : groupOpening cs = .ok r)
    (ds : List Char) : groupOpening (cs ++ ds) = .ok (r.1, r.2 ++ ds) := by
  unfold groupOpening at h
  split at h
  · cases h; rfl
  · cases h; rfl
  · cases h; rfl
  · cases h; rfl
  · cases h; rfl
  · next c cs hequals hbang =>
    cases h
    rw [List.cons_append, List.cons_append, groupOpening]
    · exact hequals
    · exact hbang
  · cases h

end Delimited

section Separated

variable {stop : Char} (hstop : Separates stop) (after : List Char)
variable {c : Char} {cs rest : List Char} {code : Nat}

include hstop

theorem hex?_append (n code : Nat) (cs : List Char) : hex? n code (cs ++ stop :: after) =
    (hex? n code cs).map fun r => (r.1, r.2 ++ stop :: after) := by
  induction n generalizing code cs with
  | zero => rfl
  | succ n ih =>
    cases cs with
    | nil => rw [List.nil_append, hex?, hstop.noHex]; rfl
    | cons c cs =>
      rw [List.cons_append, hex?, hex?]
      cases hexDigit? c with
      | none => rfl
      | some d => exact ih _ _

/-- A surrogate that is alone at the end of a text is alone before a separator. -/
theorem lowEscape?_append (cs : List Char) : lowEscape? (cs ++ stop :: after) =
    (lowEscape? cs).map fun r => (r.1, r.2 ++ stop :: after) := by
  have hnone : ∀ {cs : List Char}, (∀ more, cs ≠ '\\' :: 'u' :: more) → lowEscape? cs = none := by
    intro cs hcs
    unfold lowEscape?
    split
    · exact absurd rfl (hcs _)
    · rfl
  by_cases hescape : ∃ more, cs = '\\' :: 'u' :: more
  · obtain ⟨more, rfl⟩ := hescape
    rw [List.cons_append, List.cons_append, lowEscape?, lowEscape?, hex?_append hstop]
    cases hex? 4 0 more with
    | none => rfl
    | some r =>
      simp only [Option.map_some]
      split <;> rfl
  · rw [not_exists] at hescape
    rw [hnone hescape, hnone]
    · rfl
    · intro more heq
      rcases cs with - | ⟨c, - | ⟨d, cs⟩⟩
      · exact hstop.noMark.1 (List.cons.inj heq).1
      · have hu : stop = 'u' := (List.cons.inj (List.cons.inj heq).2).1
        have halpha := hstop.noAlpha
        rw [hu] at halpha
        cases halpha
      · obtain ⟨rfl, htail⟩ := List.cons.inj heq
        obtain ⟨rfl, -⟩ := List.cons.inj htail
        exact hescape cs rfl

theorem UnicodeReads.append (h : UnicodeReads cs code rest) :
    UnicodeReads (cs ++ stop :: after) code (rest ++ stop :: after) := by
  cases h with
  | braced read => exact .braced (bracedHex?_append read _)
  | unit four alone =>
    rw [List.append_assoc]
    exact .unit four fun isHigh => by rw [lowEscape?_append hstop, alone isHigh]; rfl
  | @pair _ high low fourHigh fourLow isHigh isLow =>
    rw [List.append_assoc, List.cons_append, List.cons_append, List.append_assoc]
    exact .pair fourHigh fourLow isHigh isLow

theorem CodeReads.append (h : CodeReads c cs code rest) :
    CodeReads c (cs ++ stop :: after) code (rest ++ stop :: after) := by
  cases h with
  | control known => exact .control known
  | null ends =>
    refine .null ?_
    cases cs with
    | nil => simp [hstop.noDigit]
    | cons d cs => exact ends
  | letter isAlpha => exact .letter isAlpha
  | backslash noLetter =>
    refine .backslash fun d hd => ?_
    cases cs with
    | nil =>
      obtain rfl : stop = d := Option.some.inj hd
      exact hstop.noAlpha
    | cons e cs => exact noLetter d hd
  | byte two =>
    rw [List.append_assoc]
    exact .byte two
  | unicode read => exact .unicode (read.append hstop after)
  | identity other noOperand noDigit => exact .identity other noOperand noDigit

theorem AtomReads.append {a : ClassAtom} (h : AtomReads c cs a rest) :
    AtomReads c (cs ++ stop :: after) a (rest ++ stop :: after) := by
  cases h with
  | dash => exact .dash
  | set letter => exact .set letter
  | backspace => exact .backspace
  | property isProperty read => exact .property isProperty (read.append _)
  | code noSet noBackspace noProperty read =>
    exact .code noSet noBackspace noProperty (read.append hstop after)
  | raw plain => exact .raw plain

theorem AtomsRead.append {atoms : List ClassAtom} (h : AtomsRead cs atoms rest) :
    AtomsRead (cs ++ stop :: after) atoms (rest ++ stop :: after) := by
  induction h with
  | close => exact .close
  | cons inside first _ ih => exact .cons inside (first.append hstop after) ih

theorem ClassTokenReads.append {t : Token} (h : ClassTokenReads cs t rest) :
    ClassTokenReads (cs ++ stop :: after) t (rest ++ stop :: after) := by
  cases h with
  | @intro negated body _ _ _ noCaret read joined =>
    have hne : body ≠ [] := by cases read <;> exact List.cons_ne_nil _ _
    rw [List.append_assoc]
    refine .intro ?_ (read.append hstop after) joined
    rwa [List.head?_append_of_ne_nil _ hne]

theorem EscapeReads.append {t : Token} (h : EscapeReads cs t rest) :
    EscapeReads (cs ++ stop :: after) t (rest ++ stop :: after) := by
  cases h with
  | set letter => exact .set letter
  | boundary => exact .boundary
  | noBoundary => exact .noBoundary
  | @backref d cs isDigit =>
    have hdigits : Stops Char.isDigit cs (stop :: after) := by
      intro _ x hx
      obtain rfl : stop = x := Option.some.inj hx
      exact hstop.noDigit
    rw [← hdigits.takeWhile_append, ← hdigits.dropWhile_append]
    exact .backref isDigit
  | @named name rest closed =>
    rw [List.cons_append, List.cons_append, List.append_assoc]
    exact .named closed
  | property isProperty read => exact .property isProperty (read.append _)
  | @code c cs _ _ noSet noBoundary noBackref noNamed noProperty read =>
    refine .code noSet noBoundary noBackref ?_ noProperty (read.append hstop after)
    rintro ⟨hk, hhead⟩
    cases cs with
    | nil => exact hstop.noMark.2.1 (Option.some.inj hhead)
    | cons d cs => exact noNamed ⟨hk, hhead⟩

/-- A token ends before a separator where it ends without one. -/
theorem TokenReads.append {t : Token} (h : TokenReads c cs t rest) :
    TokenReads c (cs ++ stop :: after) t (rest ++ stop :: after) := by
  cases h with
  | escape read => exact .escape (read.append hstop after)
  | charClass read => exact .charClass (read.append hstop after)
  | bracket => exact .bracket
  | dot => exact .dot
  | group read => exact .group (groupOpening_append read _)
  | parenthesis plain =>
    refine .parenthesis fun hhead => ?_
    cases cs with
    | nil => exact hstop.noMark.2.2 (Option.some.inj hhead)
    | cons d cs => exact plain hhead
  | raw plain => exact .raw plain

/-- A pattern is scanned before a separator as it is on its own. -/
theorem tokenText_of_scan {ts : List Token} (h : Token.scan cs = .ok ts) :
    TokenText cs ts (stop :: after) := by
  rw [scan_eq_ok] at h
  induction h with
  | nil => exact .nil _
  | @cons c cs rest t us first _ ih =>
    have hfirst := next_eq_ok.2 (first.append hstop after)
    rw [TokenText] at ih ⊢
    rw [List.cons_append, scan_cons hfirst, ih]
    cases Token.scan (stop :: after) <;> rfl

end Separated

section Rendering

variable {p q : String} {dialect : Dialect} {r s : Rendering}

theorem render_eq_ok : render p dialect = .ok r ↔
    ∃ ts, Token.scan p.toList = .ok ts ∧ r = .ofTokens dialect ts := by
  rw [render]
  cases Token.scan p.toList with
  | error e => simp [Except.map]
  | ok ts => simp [Except.map, eq_comm]

theorem ofTokens_append (dialect : Dialect) (ts us : List Token) :
    Rendering.ofTokens dialect (ts ++ us) =
      ⟨(Rendering.ofTokens dialect ts).text ++ (Rendering.ofTokens dialect us).text,
        (Rendering.ofTokens dialect ts).backtracking ||
          (Rendering.ofTokens dialect us).backtracking⟩ := by
  simp only [Rendering.ofTokens, List.flatMap_append, List.any_append]

/-- What follows a separator is written as if it stood alone, and so is what stands before it. -/
theorem render_separated {stop : Char} (hstop : Separates stop) (hplain : stop ∉ special)
    (hp : render p dialect = .ok r) (more : String) :
    render (p ++ String.singleton stop ++ more) dialect = (render more dialect).map fun s =>
      ⟨r.text ++ stop :: s.text, r.backtracking || s.backtracking⟩ := by
  obtain ⟨ts, hts, rfl⟩ := render_eq_ok.1 hp
  have hfirst : TokenText p.toList ts ([stop] ++ more.toList) := tokenText_of_scan hstop _ hts
  have hraw : TokenText [stop] [.raw stop] more.toList :=
    .raws (List.forall_mem_singleton.2 hplain) _
  have hscan := hfirst.append hraw
  rw [TokenText] at hscan
  rw [render, render, String.toList_append, String.toList_append, String.toList_singleton, hscan]
  cases Token.scan more.toList with
  | error e => rfl
  | ok us =>
    have htokens := ofTokens_append dialect ts (.raw stop :: us)
    rw [List.append_cons] at htokens
    exact congrArg Except.ok htokens

theorem render_grouped (hp : render p dialect = .ok r) :
    render ("(?:" ++ p) dialect = .ok ⟨"(?:".toList ++ r.text, r.backtracking⟩ := by
  obtain ⟨ts, hts, rfl⟩ := render_eq_ok.1 hp
  have hopen : TokenText "(?:".toList [.group .plain] p.toList := .token rfl
  refine render_eq_ok.2 ⟨.group .plain :: ts, ?_, rfl⟩
  rw [String.toList_append, hopen, hts]
  rfl

end Rendering

/-- Two patterns that are accepted are written with a bar between them as they are alone, and one in
a group as it is alone. A bar or a closing parenthesis behind an accepted pattern is read on its
own, and so is what stands behind it, accepted or not. -/
theorem render_alternatives {p q : String} {dialect : Dialect} {r s : Rendering}
    (hp : render p dialect = .ok r) (hq : render q dialect = .ok s) :
    render (p ++ "|" ++ q) dialect =
      .ok ⟨r.text ++ "|".toList ++ s.text, r.backtracking || s.backtracking⟩ ∧
    render ("(?:" ++ p ++ ")") dialect =
      .ok ⟨"(?:".toList ++ r.text ++ ")".toList, r.backtracking⟩ ∧
    ∀ more,
      render (p ++ "|" ++ more) dialect = (render more dialect).map (fun t =>
        ⟨r.text ++ '|' :: t.text, r.backtracking || t.backtracking⟩) ∧
      render (p ++ ")" ++ more) dialect = (render more dialect).map (fun t =>
        ⟨r.text ++ ')' :: t.text, r.backtracking || t.backtracking⟩) := by
  have hbar := render_separated separates_bar (by decide) hp
  have hparen := render_separated separates_parenthesis (by decide) hp
  have hnone : render "" dialect = .ok ⟨[], false⟩ := by
    refine render_eq_ok.2 ⟨[], ?_, rfl⟩
    rw [String.toList_empty, Token.scan]
  refine ⟨?_, ?_, fun more => ⟨hbar more, hparen more⟩⟩
  · have halt := hbar q
    rw [hq] at halt
    rw [List.append_assoc]
    exact halt
  · have hclose := render_separated separates_parenthesis (by decide) (render_grouped hp) ""
    rw [hnone, String.append_empty] at hclose
    rw [← Bool.or_false r.backtracking]
    exact hclose

/-- A reference, a half surrogate pair and a `\c` without its letter end with the pattern. -/
theorem render_alternatives_open :
    render "(a)\\1|\\uD800\\c" .linear =
      .ok ⟨"(a)\\1|".toList ++ noneText ++ "\\\\c".toList, true⟩ ∧
    render "(?:(a)\\1)" .linear = .ok ⟨"(?:(a)\\1)".toList, true⟩ ∧
    render "(a)\\1)[" .linear = .error .unterminatedClass := by
  have hfirst : render "(a)\\1" .linear = .ok ⟨"(a)\\1".toList, true⟩ := by decide +kernel
  have hsecond : render "\\uD800\\c" .linear = .ok ⟨noneText ++ "\\\\c".toList, false⟩ := by
    decide +kernel
  obtain ⟨hbar, hgroup, hmore⟩ := render_alternatives hfirst hsecond
  have hclass : render "[" .linear = .error .unterminatedClass := by decide +kernel
  have hrest := (hmore "[").2
  rw [hclass] at hrest
  exact ⟨hbar, hgroup, hrest⟩

end JsonRules.Pattern
