import JsonRules.Proofs.Pattern.Scan

/-!
# What the scanner reads

A relation for each reader of the scanner, with a constructor for each way in which it succeeds:
what it has checked of the text, what it makes of it and where it goes on. A reader succeeds as its
relation says and only so. What holds of all tokens is proved from these, case by case, and no
reader is opened again.
-/

namespace JsonRules.Pattern

variable {c : Char} {cs rest : List Char}

section Results

theorem map_ok {α β : Type} {x : Except PatternError α} {f : α → β} {b : β}
    (h : x.map f = .ok b) : ∃ a, x = .ok a ∧ f a = b := by
  cases x with
  | error e => cases h
  | ok a =>
    cases h
    exact ⟨a, rfl, rfl⟩

/-- What is read up to a character is what stands before its first occurrence. -/
theorem through?_eq_some {stop : Char} {text : List Char} :
    through? stop cs = some (text, rest) ↔
      ∃ name, stop ∉ name ∧ text = name ++ [stop] ∧ cs = name ++ stop :: rest := by
  constructor
  · intro h
    induction cs generalizing text with
    | nil => cases h
    | cons c cs ih =>
      rw [through?] at h
      split at h
      · next hstop =>
        cases h
        exact ⟨[], List.not_mem_nil, by rw [hstop]; rfl, by rw [hstop]; rfl⟩
      · next hne =>
        obtain ⟨read, hread, heq⟩ := Option.map_eq_some_iff.1 h
        cases heq
        obtain ⟨name, hname, htext, hcs⟩ := ih hread
        refine ⟨c :: name, ?_, congrArg (c :: ·) htext, congrArg (c :: ·) hcs⟩
        rw [List.mem_cons, not_or]
        exact ⟨Ne.symm hne, hname⟩
  · rintro ⟨name, hname, rfl, rfl⟩
    induction name with
    | nil => exact if_pos rfl
    | cons c name ih =>
      rw [List.mem_cons, not_or] at hname
      rw [List.cons_append, through?, if_neg (Ne.symm hname.1), ih hname.2]
      rfl

end Results

section Codes

inductive UnicodeReads : List Char → Nat → List Char → Prop
  | braced {cs rest : List Char} {code : Nat} (read : bracedHex? 0 0 cs = some (code, rest)) :
      UnicodeReads ('{' :: cs) code rest
  | unit {rest : List Char} {digits : List HexDigit} (four : digits.length = 4)
      (alone : isHighSurrogate (hexValue digits) = true → lowEscape? rest = none) :
      UnicodeReads (hexDigits digits ++ rest) (hexValue digits) rest
  | pair {rest : List Char} {high low : List HexDigit} (fourHigh : high.length = 4)
      (fourLow : low.length = 4) (isHigh : isHighSurrogate (hexValue high) = true)
      (isLow : isLowSurrogate (hexValue low) = true) :
      UnicodeReads (hexDigits high ++ '\\' :: 'u' :: (hexDigits low ++ rest))
        (joinSurrogates (hexValue high) (hexValue low)) rest

theorem digits_of_lowEscape? {low : Nat} (h : lowEscape? cs = some (low, rest)) :
    ∃ digits : List HexDigit, digits.length = 4 ∧ cs = '\\' :: 'u' :: (hexDigits digits ++ rest) ∧
      low = hexValue digits ∧ isLowSurrogate low = true := by
  unfold lowEscape? at h
  split at h
  · split at h
    · next hdigits =>
      obtain ⟨digits, four, rfl, hvalue⟩ := CodeEscape.exists_digits_of_hex? hdigits
      split at h
      · next isLow =>
        cases h
        exact ⟨digits, four, rfl, hvalue, isLow⟩
      · cases h
    · cases h
  · cases h

theorem unicodeEscape_eq_ok {code : Nat} :
    unicodeEscape cs = .ok (code, rest) ↔ UnicodeReads cs code rest := by
  constructor
  · intro h
    unfold unicodeEscape at h
    split at h
    · split at h
      · next hbraced =>
        cases h
        exact .braced hbraced
      · cases h
    split at h
    · cases h
    next high mid hhigh =>
    obtain ⟨digits, four, rfl, rfl⟩ := CodeEscape.exists_digits_of_hex? hhigh
    split at h
    · next isHigh =>
      split at h
      · next hlow =>
        obtain ⟨low, fourLow, rfl, rfl, isLow⟩ := digits_of_lowEscape? hlow
        obtain ⟨rfl, rfl⟩ := Prod.mk.inj (Except.ok.inj h)
        exact .pair four fourLow isHigh isLow
      · next hnone =>
        cases h
        exact .unit four fun _ => hnone
    · next isHigh =>
      cases h
      exact .unit four fun h => absurd h isHigh
  · intro h
    cases h with
    | braced read => rw [unicodeEscape, read]
    | unit four alone =>
      rw [CodeEscape.unicodeEscape_unit four]
      split
      · next isHigh => rw [alone isHigh]
      · rfl
    | pair fourHigh fourLow isHigh isLow =>
      rw [CodeEscape.unicodeEscape_unit fourHigh, if_pos isHigh,
        CodeEscape.lowEscape?_digits fourLow isLow]

inductive CodeReads : Char → List Char → Nat → List Char → Prop
  | control {c : Char} {cs : List Char} {code : Nat} (known : controlEscape? c = some code) :
      CodeReads c cs code cs
  | null {cs : List Char} (ends : (cs.head?.all fun d => !d.isDigit) = true) :
      CodeReads '0' cs 0 cs
  | letter {d : Char} {cs : List Char} (isAlpha : d.isAlpha = true) :
      CodeReads 'c' (d :: cs) (d.toNat % 32) cs
  /-- The `c` is read again. -/
  | backslash {cs : List Char} (noLetter : ∀ d, cs.head? = some d → d.isAlpha = false) :
      CodeReads 'c' cs 0x5C ('c' :: cs)
  | byte {rest : List Char} {digits : List HexDigit} (two : digits.length = 2) :
      CodeReads 'x' (hexDigits digits ++ rest) (hexValue digits) rest
  | unicode {cs rest : List Char} {code : Nat} (read : UnicodeReads cs code rest) :
      CodeReads 'u' cs code rest
  | identity {c : Char} {cs : List Char} (other : controlEscape? c = none)
      (noOperand : c ≠ 'c' ∧ c ≠ 'x' ∧ c ≠ 'u') (noDigit : c.isDigit = false) :
      CodeReads c cs c.toNat cs

theorem codeReads_letterEscape (cs : List Char) :
    CodeReads 'c' cs (letterEscape cs).1 (letterEscape cs).2 := by
  cases cs with
  | nil => exact .backslash fun _ h => by cases h
  | cons d cs =>
    rw [letterEscape]
    split
    · next isAlpha => exact .letter isAlpha
    · next noAlpha =>
      refine .backslash fun x hx => ?_
      cases hx
      exact Bool.eq_false_iff.2 noAlpha

theorem codeReads_of_codeEscape {code : Nat} (h : codeEscape c cs = .ok (code, rest)) :
    CodeReads c cs code rest := by
  unfold codeEscape at h
  split at h
  · next known =>
    cases h
    exact .control known
  next other =>
  split at h
  · next hnull =>
    cases h
    rw [hnull.1]
    exact .null hnull.2
  split at h
  · next hletter =>
    have hread := codeReads_letterEscape cs
    rw [Except.ok.inj h] at hread
    rw [hletter]
    exact hread
  next noLetter =>
  split at h
  · next hx =>
    split at h
    · next hread =>
      cases h
      obtain ⟨digits, two, rfl, rfl⟩ := CodeEscape.exists_digits_of_hex? hread
      rw [hx]
      exact .byte two
    · cases h
  next noByte =>
  split at h
  · next hu =>
    rw [hu]
    exact .unicode (unicodeEscape_eq_ok.1 h)
  next noUnicode =>
  split at h
  · cases h
  · next noDigit =>
    cases h
    exact .identity other ⟨noLetter, noByte, noUnicode⟩ (Bool.eq_false_iff.2 noDigit)

theorem CodeReads.codeEscape {code : Nat} (h : CodeReads c cs code rest) :
    codeEscape c cs = .ok (code, rest) := by
  cases h with
  | control known => rw [codeEscape, known]
  | null ends => exact if_pos ⟨rfl, ends⟩
  | letter isAlpha =>
    show Except.ok (letterEscape _) = _
    rw [letterEscape, if_pos isAlpha]
  | backslash noLetter =>
    show Except.ok (letterEscape cs) = _
    cases cs with
    | nil => rfl
    | cons d cs => rw [letterEscape, if_neg (Bool.eq_false_iff.1 (noLetter d rfl))]
  | @byte _ digits two =>
    have hread := hex?_digits digits 0 rest
    rw [two] at hread
    rw [codeEscape, hread]
    rfl
  | unicode read => exact unicodeEscape_eq_ok.2 read
  | identity other noOperand noDigit =>
    have hnull : ¬ (c = '0' ∧ (cs.head?.all fun d => !d.isDigit) = true) := by
      rintro ⟨rfl, -⟩
      cases noDigit
    rw [codeEscape, other]
    simp only
    rw [if_neg hnull, if_neg noOperand.1, if_neg noOperand.2.1, if_neg noOperand.2.2,
      if_neg (Bool.eq_false_iff.1 noDigit)]

theorem codeEscape_eq_ok {code : Nat} :
    codeEscape c cs = .ok (code, rest) ↔ CodeReads c cs code rest :=
  ⟨codeReads_of_codeEscape, CodeReads.codeEscape⟩

end Codes

section Properties

inductive PropertyReads (letter : Char) : List Char → List Char → List Char → Prop
  | braced {name rest : List Char} (closed : '}' ∉ name) :
      PropertyReads letter ('{' :: (name ++ '}' :: rest))
        ('\\' :: letter :: '{' :: (name ++ ['}'])) rest
  | short {d : Char} {rest : List Char} (plain : d ≠ '{') :
      PropertyReads letter (d :: rest) ['\\', letter, d] rest

theorem propertyText_eq_ok {letter : Char} {text : List Char} :
    propertyText letter cs = .ok (text, rest) ↔ PropertyReads letter cs text rest := by
  constructor
  · intro h
    cases cs with
    | nil => cases h
    | cons d cs =>
      rw [propertyText] at h
      split at h
      · next hbrace =>
        split at h
        · next hthrough =>
          cases h
          obtain ⟨name, closed, rfl, rfl⟩ := through?_eq_some.1 hthrough
          rw [hbrace]
          exact .braced closed
        · cases h
      · next plain =>
        cases h
        exact .short plain
  · intro h
    cases h with
    | braced closed => rw [propertyText, if_pos rfl, through?_eq_some.2 ⟨_, closed, rfl, rfl⟩]
    | short plain => rw [propertyText, if_neg plain]

end Properties

section Classes

inductive AtomReads : Char → List Char → ClassAtom → List Char → Prop
  | dash {cs : List Char} : AtomReads '-' cs .dash cs
  | set {e : Char} {cs : List Char} {named : NamedSet} {negated : Bool}
      (letter : NamedSet.ofLetter? e = some (named, negated)) :
      AtomReads '\\' (e :: cs) (.set (if negated then named.codes.complement else named.codes)) cs
  | backspace {cs : List Char} : AtomReads '\\' ('b' :: cs) (.code 0x08) cs
  | property {e : Char} {cs text rest : List Char} (isProperty : e = 'p' ∨ e = 'P')
      (read : PropertyReads e cs text rest) : AtomReads '\\' (e :: cs) (.property text) rest
  | code {e : Char} {cs rest : List Char} {code : Nat} (noSet : NamedSet.ofLetter? e = none)
      (noBackspace : e ≠ 'b') (noProperty : ¬ (e = 'p' ∨ e = 'P'))
      (read : CodeReads e cs code rest) : AtomReads '\\' (e :: cs) (.code code) rest
  | raw {c : Char} {cs : List Char} (plain : c ≠ '-' ∧ c ≠ '\\') : AtomReads c cs (.code c.toNat) cs

theorem atomReads_of_classAtom {a : ClassAtom} (h : classAtom c cs = .ok (a, rest)) :
    AtomReads c cs a rest := by
  unfold classAtom at h
  split at h
  · next hdash =>
    cases h
    rw [hdash]
    exact .dash
  next noDash =>
  split at h
  · next hescape =>
    rw [hescape]
    split at h
    · cases h
    split at h
    · next letter =>
      cases h
      exact .set letter
    next noSet =>
    split at h
    · next hb =>
      cases h
      rw [hb]
      exact .backspace
    next noBackspace =>
    split at h
    · next isProperty =>
      obtain ⟨read, hread, heq⟩ := map_ok h
      cases heq
      exact .property isProperty (propertyText_eq_ok.1 hread)
    · next noProperty =>
      obtain ⟨read, hread, heq⟩ := map_ok h
      cases heq
      exact .code noSet noBackspace noProperty (codeEscape_eq_ok.1 hread)
  · next noEscape =>
    cases h
    exact .raw ⟨noDash, noEscape⟩

theorem AtomReads.classAtom {a : ClassAtom} (h : AtomReads c cs a rest) :
    classAtom c cs = .ok (a, rest) := by
  cases h with
  | dash => rfl
  | set letter =>
    rw [classAtom, if_neg (by decide), if_pos rfl]
    simp only [letter]
  | backspace => rfl
  | property isProperty read =>
    have hread := propertyText_eq_ok.2 read
    rcases isProperty with rfl | rfl <;>
      exact congrArg (Except.map fun r => (ClassAtom.property r.1, r.2)) hread
  | code noSet noBackspace noProperty read =>
    rw [classAtom, if_neg (by decide), if_pos rfl]
    simp only [noSet]
    rw [if_neg noBackspace, if_neg noProperty, codeEscape_eq_ok.2 read]
    rfl
  | raw plain =>
    unfold classAtom
    rw [if_neg plain.1, if_neg plain.2]

theorem classAtom_eq_ok {a : ClassAtom} :
    classAtom c cs = .ok (a, rest) ↔ AtomReads c cs a rest :=
  ⟨atomReads_of_classAtom, AtomReads.classAtom⟩

inductive AtomsRead : List Char → List ClassAtom → List Char → Prop
  | close {cs : List Char} : AtomsRead (']' :: cs) [] cs
  | cons {c : Char} {cs mid rest : List Char} {a : ClassAtom} {atoms : List ClassAtom}
      (inside : c ≠ ']') (first : AtomReads c cs a mid) (more : AtomsRead mid atoms rest) :
      AtomsRead (c :: cs) (a :: atoms) rest

theorem classAtoms_eq_ok {atoms : List ClassAtom} :
    classAtoms cs = .ok (atoms, rest) ↔ AtomsRead cs atoms rest := by
  constructor
  · intro h
    fun_induction classAtoms cs generalizing atoms with
    | case1 => cases h
    | case2 =>
      cases h
      exact .close
    | case3 => cases h
    | case4 c cs inside a mid hfirst _ ih =>
      obtain ⟨read, hread, heq⟩ := map_ok h
      cases heq
      exact .cons inside (classAtom_eq_ok.1 hfirst) (ih hread)
  · intro h
    induction h with
    | close => rw [classAtoms, if_pos rfl]
    | cons inside first _ ih =>
      rw [classAtoms_cons inside (classAtom_eq_ok.2 first), ih]
      rfl

/-- A member of a class is one of its atoms, or a range between two of them. -/
inductive JoinedFrom (atoms : List ClassAtom) : ClassItem → Prop
  | atom {a : ClassAtom} (mem : a ∈ atoms) : JoinedFrom atoms (.ofAtom a)
  | range {a b : ClassAtom} {lo hi : Nat} (memFirst : a ∈ atoms) (memLast : b ∈ atoms)
      (first : a.endpoint? = some lo) (last : b.endpoint? = some hi) (le : lo ≤ hi) :
      JoinedFrom atoms (.range lo hi)

theorem JoinedFrom.mono {more all : List ClassAtom} {item : ClassItem} (h : JoinedFrom more item)
    (hsub : ∀ a ∈ more, a ∈ all) : JoinedFrom all item := by
  cases h with
  | atom mem => exact .atom (hsub _ mem)
  | range memFirst memLast first last le =>
    exact .range (hsub _ memFirst) (hsub _ memLast) first last le

theorem joinedFrom_of_mem {atoms : List ClassAtom} {items : List ClassItem}
    (h : ClassItem.ofAtoms atoms = .ok items) {item : ClassItem} (hitem : item ∈ items) :
    JoinedFrom atoms item := by
  fun_induction ClassItem.ofAtoms atoms generalizing items with
  | case1 =>
    cases h
    cases hitem
  | case2 => cases h
  | case3 a b rest lo hi hhi hlo hle ih =>
    obtain ⟨more, hmore, rfl⟩ := map_ok h
    rcases List.mem_cons.1 hitem with rfl | hitem
    · exact .range (by simp) (by simp) hlo hhi (Nat.le_of_not_lt hle)
    · exact (ih hmore hitem).mono fun x hx => by simp [hx]
  | case4 a b rest _ ih =>
    obtain ⟨more, hmore, rfl⟩ := map_ok h
    rcases List.mem_cons.1 hitem with rfl | hitem
    · exact .atom List.mem_cons_self
    · exact (ih hmore hitem).mono fun x hx => List.mem_cons_of_mem a hx
  | case5 a rest _ ih =>
    obtain ⟨more, hmore, rfl⟩ := map_ok h
    rcases List.mem_cons.1 hitem with rfl | hitem
    · exact .atom List.mem_cons_self
    · exact (ih hmore hitem).mono fun x hx => List.mem_cons_of_mem a hx

/-- A class is read from the text after its opening bracket: the mark that negates it, its atoms and
what they are joined to. -/
inductive ClassTokenReads : List Char → Token → List Char → Prop
  | intro {negated : Bool} {body rest : List Char} {atoms : List ClassAtom} {items : List ClassItem}
      (noCaret : negated = false → body.head? ≠ some '^') (read : AtomsRead body atoms rest)
      (joined : ClassItem.ofAtoms atoms = .ok items) :
      ClassTokenReads ((if negated then ['^'] else []) ++ body) (.charClass negated items) rest

theorem classToken_eq_ok {t : Token} :
    classToken cs = .ok (t, rest) ↔ ClassTokenReads cs t rest := by
  constructor
  · intro h
    obtain ⟨negated, body, rfl, noCaret⟩ := exists_body cs
    rw [classToken_body noCaret] at h
    cases hatoms : classAtoms body with
    | error e =>
      rw [hatoms] at h
      cases h
    | ok read =>
      rw [hatoms] at h
      obtain ⟨items, joined, heq⟩ := map_ok h
      cases heq
      exact .intro noCaret (classAtoms_eq_ok.1 hatoms) joined
  · intro h
    cases h with
    | intro noCaret read joined =>
      rw [classToken_eq noCaret (classAtoms_eq_ok.2 read), joined]
      rfl

end Classes

section Tokens

inductive EscapeReads : List Char → Token → List Char → Prop
  | set {c : Char} {cs : List Char} {named : NamedSet} {negated : Bool}
      (letter : NamedSet.ofLetter? c = some (named, negated)) :
      EscapeReads (c :: cs) (.set named negated) cs
  | boundary {cs : List Char} : EscapeReads ('b' :: cs) (.boundary false) cs
  | noBoundary {cs : List Char} : EscapeReads ('B' :: cs) (.boundary true) cs
  | backref {d : Char} {cs : List Char} (isDigit : '1' ≤ d ∧ d ≤ '9') :
      EscapeReads (d :: cs) (.backref (d :: cs.takeWhile Char.isDigit)) (cs.dropWhile Char.isDigit)
  | named {name rest : List Char} (closed : '>' ∉ name) :
      EscapeReads ('k' :: '<' :: (name ++ '>' :: rest)) (.namedBackref ('<' :: (name ++ ['>'])))
        rest
  | property {c : Char} {cs text rest : List Char} (isProperty : c = 'p' ∨ c = 'P')
      (read : PropertyReads c cs text rest) : EscapeReads (c :: cs) (.property text) rest
  | code {c : Char} {cs rest : List Char} {code : Nat} (noSet : NamedSet.ofLetter? c = none)
      (noBoundary : c ≠ 'b' ∧ c ≠ 'B') (noBackref : ¬ ('1' ≤ c ∧ c ≤ '9'))
      (noNamed : ¬ (c = 'k' ∧ cs.head? = some '<')) (noProperty : ¬ (c = 'p' ∨ c = 'P'))
      (read : CodeReads c cs code rest) : EscapeReads (c :: cs) (.code code) rest

theorem ofLetter?_of_isDigit (h : '1' ≤ c ∧ c ≤ '9') : NamedSet.ofLetter? c = none := by
  have hdigit := isDigit_of_le h.1 h.2
  unfold NamedSet.ofLetter?
  split <;> first | rfl | cases hdigit

theorem escapeReads_of_escape {t : Token} (h : escape cs = .ok (t, rest)) :
    EscapeReads cs t rest := by
  unfold escape at h
  split at h
  · cases h
  next c cs =>
  split at h
  · next letter =>
    cases h
    exact .set letter
  next noSet =>
  split at h
  · next hb =>
    cases h
    rw [hb]
    exact .boundary
  next noB =>
  split at h
  · next hB =>
    cases h
    rw [hB]
    exact .noBoundary
  next noNegated =>
  split at h
  · next isDigit =>
    cases h
    exact .backref isDigit
  next noBackref =>
  split at h
  · next hname =>
    split at h
    · next hthrough =>
      cases h
      obtain ⟨cs, rfl⟩ := List.head?_eq_some_iff.1 hname.2
      obtain ⟨name, closed, rfl, htext⟩ := through?_eq_some.1 hthrough
      rw [hname.1]
      cases name with
      | nil => cases htext
      | cons d name =>
        obtain ⟨rfl, rfl⟩ := List.cons.inj htext
        exact .named fun hname => closed (List.mem_cons_of_mem _ hname)
    · cases h
  next noNamed =>
  split at h
  · next isProperty =>
    obtain ⟨read, hread, heq⟩ := map_ok h
    cases heq
    exact .property isProperty (propertyText_eq_ok.1 hread)
  · next noProperty =>
    obtain ⟨read, hread, heq⟩ := map_ok h
    cases heq
    exact .code noSet ⟨noB, noNegated⟩ noBackref noNamed noProperty (codeEscape_eq_ok.1 hread)

theorem EscapeReads.escape {t : Token} (h : EscapeReads cs t rest) :
    escape cs = .ok (t, rest) := by
  cases h with
  | set letter =>
    rw [escape]
    simp only [letter]
  | boundary => rfl
  | noBoundary => rfl
  | backref isDigit =>
    have hb : ∀ x : Char, ¬ ('1' ≤ x ∧ x ≤ '9') → _ ≠ x := fun x hx heq => hx (heq ▸ isDigit)
    rw [escape]
    simp only [ofLetter?_of_isDigit isDigit]
    rw [if_neg (hb 'b' (by decide)), if_neg (hb 'B' (by decide)), if_pos isDigit]
  | @named name rest closed =>
    have hopen : '>' ∉ '<' :: name := by simp [closed]
    have hthrough : through? '>' ('<' :: (name ++ '>' :: rest)) =
        some ('<' :: (name ++ ['>']), rest) := through?_eq_some.2 ⟨_, hopen, rfl, rfl⟩
    have hset : NamedSet.ofLetter? 'k' = none := rfl
    rw [escape]
    simp only [hset]
    rw [if_neg (by decide), if_neg (by decide), if_neg (by decide), if_pos (by simp), hthrough]
  | property isProperty read =>
    have hread := propertyText_eq_ok.2 read
    rcases isProperty with rfl | rfl <;>
      exact congrArg (Except.map fun r => (Token.property r.1, r.2)) hread
  | code noSet noBoundary noBackref noNamed noProperty read =>
    rw [escape_eq_codeEscape noSet noBoundary noBackref noNamed noProperty,
      codeEscape_eq_ok.2 read]
    rfl

theorem escape_eq_ok {t : Token} : escape cs = .ok (t, rest) ↔ EscapeReads cs t rest :=
  ⟨escapeReads_of_escape, EscapeReads.escape⟩

inductive TokenReads : Char → List Char → Token → List Char → Prop
  | escape {cs rest : List Char} {t : Token} (read : EscapeReads cs t rest) :
      TokenReads '\\' cs t rest
  | charClass {cs rest : List Char} {t : Token} (read : ClassTokenReads cs t rest) :
      TokenReads '[' cs t rest
  | bracket {cs : List Char} : TokenReads ']' cs .bracket cs
  | dot {cs : List Char} : TokenReads '.' cs .dot cs
  | group {cs rest : List Char} {opening : GroupOpening}
      (read : groupOpening cs = .ok (opening, rest)) :
      TokenReads '(' ('?' :: cs) (.group opening) rest
  | parenthesis {cs : List Char} (plain : cs.head? ≠ some '?') : TokenReads '(' cs (.raw '(') cs
  | raw {c : Char} {cs : List Char} (plain : c ∉ special) : TokenReads c cs (.raw c) cs

theorem tokenReads_of_next {t : Token} (h : Token.next c cs = .ok (t, rest)) :
    TokenReads c cs t rest := by
  unfold Token.next at h
  split at h
  · next hescape =>
    rw [hescape]
    exact .escape (escape_eq_ok.1 h)
  next noEscape =>
  split at h
  · next hclass =>
    rw [hclass]
    exact .charClass (classToken_eq_ok.1 h)
  next noClass =>
  split at h
  · next hbracket =>
    cases h
    rw [hbracket]
    exact .bracket
  next noBracket =>
  split at h
  · next hdot =>
    cases h
    rw [hdot]
    exact .dot
  next noDot =>
  split at h
  · next hparen =>
    subst hparen
    split at h
    · obtain ⟨read, hread, heq⟩ := map_ok h
      cases heq
      exact .group hread
    · next hmark =>
      cases h
      refine .parenthesis fun hhead => ?_
      obtain ⟨more, rfl⟩ := List.head?_eq_some_iff.1 hhead
      exact hmark more rfl
  · next noParen =>
    cases h
    exact .raw (by simp [special, noEscape, noClass, noBracket, noDot, noParen])

theorem TokenReads.next {t : Token} (h : TokenReads c cs t rest) :
    Token.next c cs = .ok (t, rest) := by
  cases h with
  | escape read => exact escape_eq_ok.2 read
  | charClass read => exact classToken_eq_ok.2 read
  | bracket => rfl
  | dot => rfl
  | group read => exact congrArg (Except.map fun r => (Token.group r.1, r.2)) read
  | parenthesis plain => exact next_paren plain
  | raw plain => exact next_raw plain cs

theorem next_eq_ok {t : Token} : Token.next c cs = .ok (t, rest) ↔ TokenReads c cs t rest :=
  ⟨tokenReads_of_next, TokenReads.next⟩

inductive Scans : List Char → List Token → Prop
  | nil : Scans [] []
  | cons {c : Char} {cs rest : List Char} {t : Token} {ts : List Token}
      (first : TokenReads c cs t rest) (more : Scans rest ts) : Scans (c :: cs) (t :: ts)

theorem scan_eq_ok {ts : List Token} : Token.scan cs = .ok ts ↔ Scans cs ts := by
  constructor
  · intro h
    fun_induction Token.scan cs generalizing ts with
    | case1 =>
      cases h
      exact .nil
    | case2 => cases h
    | case3 c cs t rest hfirst _ ih =>
      obtain ⟨us, hus, rfl⟩ := map_ok h
      exact .cons (next_eq_ok.1 hfirst) (ih hus)
  · intro h
    induction h with
    | nil => rw [Token.scan]
    | cons first _ ih =>
      rw [scan_cons (next_eq_ok.2 first), ih]
      rfl

end Tokens

end JsonRules.Pattern
