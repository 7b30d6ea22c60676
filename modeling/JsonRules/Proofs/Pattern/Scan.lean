import JsonRules.Pattern.Source

/-!
# The tokens of a pattern

A pattern is scanned into the tokens that stand for its parts. Each part is scanned to where the
next one begins, whatever follows the whole: this is the shape of all statements here, from the
digits of an escape to the pattern.
-/

namespace JsonRules.Pattern

open Text (hexDigit?)
open Unicode (maxCode CodeSet)

section Digits

theorem isDigit_of_le {c : Char} (hlo : '1' ≤ c) (hhi : c ≤ '9') : c.isDigit = true := by
  simp only [Char.isDigit, Bool.and_eq_true, decide_eq_true_iff]
  exact ⟨Nat.le_trans (by decide) hlo, hhi⟩

theorem hexDigit?_getD (d : HexDigit) : hexDigit? d.1 = some ((hexDigit? d.1).getD 0) := by
  obtain ⟨c, hc⟩ := d
  obtain ⟨n, hn⟩ := Option.isSome_iff_exists.1 hc
  rw [hn]
  rfl

theorem hex?_digits (digits : List HexDigit) (n : Nat) (rest : List Char) :
    hex? digits.length n (hexDigits digits ++ rest) = some (hexFrom n digits, rest) := by
  induction digits generalizing n with
  | nil => rfl
  | cons d digits ih =>
    rw [hexDigits, List.map_cons, List.cons_append, List.length_cons, hex?, hexDigit?_getD,
      Option.bind_some, ← hexDigits, ih]
    rfl

theorem le_hexFrom (n : Nat) (digits : List HexDigit) : n ≤ hexFrom n digits := by
  induction digits generalizing n with
  | nil => exact Nat.le_refl n
  | cons d digits ih =>
    have hstep : n ≤ n * 16 + (hexDigit? d.1).getD 0 := by omega
    exact Nat.le_trans hstep (ih _)

theorem hexDigit_ne_brace (d : HexDigit) : d.1 ≠ '}' := by
  intro h
  have hdigit := d.2
  rw [h] at hdigit
  cases hdigit

/-- No digit on the way makes the number too large if all of them do not. -/
theorem bracedHex?_digits (digits : List HexDigit) (count n : Nat) (rest : List Char)
    (hsome : 0 < count ∨ digits ≠ []) (hcount : count + digits.length < Word.countLimit)
    (hmax : hexFrom n digits ≤ maxCode) :
    bracedHex? count n (hexDigits digits ++ '}' :: rest) = some (hexFrom n digits, rest) := by
  induction digits generalizing count n with
  | nil =>
    have hpos : 0 < count := hsome.resolve_right fun h => h rfl
    show bracedHex? count n ('}' :: rest) = _
    rw [bracedHex?, if_pos rfl, if_pos hpos]
    rfl
  | cons d digits ih =>
    have hstep := Nat.le_trans (le_hexFrom _ digits) hmax
    rw [List.length_cons] at hcount
    rw [hexDigits, List.map_cons, List.cons_append, bracedHex?, if_neg (hexDigit_ne_brace d),
      hexDigit?_getD, Option.bind_some, if_neg (Nat.not_lt.2 hstep), ← hexDigits,
      Word.count?_of_lt (by omega), Option.bind_some,
      ih _ _ (.inl (Nat.succ_pos count)) (by omega) hmax]
    rfl

/-- Digits that cannot be counted are no number, whatever they spell and whatever follows them. -/
theorem bracedHex?_uncounted {digits : List HexDigit} {count : Nat}
    (hcount : count < Word.countLimit) (hmany : Word.countLimit ≤ count + digits.length) (n : Nat)
    (rest : List Char) : bracedHex? count n (hexDigits digits ++ rest) = none := by
  induction digits generalizing count n with
  | nil =>
    rw [List.length_nil] at hmany
    omega
  | cons d digits ih =>
    rw [List.length_cons] at hmany
    rw [hexDigits, List.map_cons, List.cons_append, bracedHex?, if_neg (hexDigit_ne_brace d),
      hexDigit?_getD, Option.bind_some, ← hexDigits]
    split
    · rfl
    cases hnext : Word.count? count with
    | none => rfl
    | some next =>
      obtain ⟨rfl, hlt⟩ := Word.count?_eq_some.1 hnext
      exact ih hlt (by omega) _

theorem hexDigit?_zero : (hexDigit? '0').isSome = true := rfl

/-- Zeros, of which there are more than can be counted. -/
def overlongDigits : List HexDigit := List.replicate Word.countLimit ⟨'0', hexDigit?_zero⟩

theorem length_overlongDigits : overlongDigits.length = Word.countLimit := List.length_replicate

theorem hexValue_zeros (n : Nat) : hexValue (List.replicate n ⟨'0', hexDigit?_zero⟩) = 0 := by
  induction n with
  | zero => rfl
  | succ n ih => exact ih

theorem hexDigits_overlongDigits :
    hexDigits overlongDigits = List.replicate Word.countLimit '0' := List.map_replicate

end Digits

namespace CodeEscape

/-- The first character of an escape for a code point is none of those of other escapes. -/
structure IsLead (c : Char) : Prop where
  set : NamedSet.ofLetter? c = none
  boundary : c ≠ 'b' ∧ c ≠ 'B'
  backref : ¬ ('1' ≤ c ∧ c ≤ '9')
  named : c ≠ 'k'
  property : ¬ (c = 'p' ∨ c = 'P')

theorem isLead_of_not_alphanum {c : Char} (h : c.isAlphanum = false) : IsLead c where
  set := by
    unfold NamedSet.ofLetter?
    split <;> first | rfl | cases h
  boundary := ⟨fun hc => absurd (hc ▸ h) (by decide), fun hc => absurd (hc ▸ h) (by decide)⟩
  backref := by
    rintro ⟨hlo, hhi⟩
    rw [Char.isAlphanum, isDigit_of_le hlo hhi, Bool.or_true] at h
    cases h
  named := by rintro rfl; cases h
  property := by rintro (rfl | rfl) <;> cases h

theorem isLead_of_mem {c : Char} (h : c ∈ ['t', 'n', 'v', 'f', 'r', '0', 'c', 'x', 'u']) :
    IsLead c := by
  simp only [List.mem_cons, List.not_mem_nil, or_false] at h
  obtain rfl | rfl | rfl | rfl | rfl | rfl | rfl | rfl | rfl := h <;>
    exact ⟨rfl, by decide, by decide, by decide, by decide⟩

theorem controlEscape?_of_not_alphanum {c : Char} (h : c.isAlphanum = false) :
    controlEscape? c = none := by
  unfold controlEscape?
  split <;> first | rfl | cases h

theorem codeEscape_identity {c : Char} (h : c.isAlphanum = false) (rest : List Char) :
    codeEscape c rest = .ok (c.toNat, rest) := by
  have hdigit : c.isDigit = false := by
    rw [Char.isAlphanum, Bool.or_eq_false_iff] at h
    exact h.2
  rw [codeEscape, controlEscape?_of_not_alphanum h]
  simp only
  rw [if_neg, if_neg, if_neg, if_neg, if_neg]
  · simp [hdigit]
  · rintro rfl; cases h
  · rintro rfl; cases h
  · rintro rfl; cases h
  · rintro ⟨rfl, -⟩; cases h

theorem unicodeEscape_unit {digits : List HexDigit} (four : digits.length = 4) (rest : List Char) :
    unicodeEscape (hexDigits digits ++ rest) =
      if isHighSurrogate (hexValue digits) = true then
        match lowEscape? rest with
        | some (low, rest) => .ok (joinSurrogates (hexValue digits) low, rest)
        | none => .ok (hexValue digits, rest)
      else .ok (hexValue digits, rest) := by
  have hhex := hex?_digits digits 0 rest
  rw [four] at hhex
  have hbrace : ∀ cs, hexDigits digits ++ rest ≠ '{' :: cs := by
    intro cs h
    cases digits with
    | nil => cases four
    | cons d digits =>
      have := d.2
      rw [(List.cons.inj h).1] at this
      cases this
  unfold unicodeEscape
  split
  · next heq => exact absurd heq (hbrace _)
  · rw [hhex]
    rfl

theorem lowEscape?_digits {low : List HexDigit} (four : low.length = 4)
    (isLow : isLowSurrogate (hexValue low) = true) (rest : List Char) :
    lowEscape? ('\\' :: 'u' :: (hexDigits low ++ rest)) = some (hexValue low, rest) := by
  have hhex := hex?_digits low 0 rest
  rw [four] at hhex
  simp only [lowEscape?, hhex]
  exact if_pos isLow

/-- Digits that are read are the first ones of the text. -/
theorem exists_digits_of_hex? {n code : Nat} {cs : List Char} {r : Nat × List Char}
    (h : hex? n code cs = some r) : ∃ digits : List HexDigit, digits.length = n ∧
      cs = hexDigits digits ++ r.2 ∧ r.1 = hexFrom code digits := by
  induction n generalizing code cs with
  | zero => cases h; exact ⟨[], rfl, rfl, rfl⟩
  | succ n ih =>
    cases cs with
    | nil => cases h
    | cons c cs =>
      rw [hex?] at h
      obtain ⟨d, hd, h⟩ := Option.bind_eq_some_iff.1 h
      obtain ⟨digits, hlen, rfl, hvalue⟩ := ih h
      refine ⟨⟨c, by rw [hd]; rfl⟩ :: digits, congrArg (· + 1) hlen, rfl, ?_⟩
      rw [hexFrom, hd]
      exact hvalue

theorem lowEscape?_eq_none {digits : List HexDigit} {four : digits.length = 4} {rest : List Char}
    (h : (unit digits four).Ends rest) (isHigh : isHighSurrogate (hexValue digits) = true) :
    lowEscape? rest = none := by
  unfold lowEscape?
  split
  · next cs =>
    split
    · next low more hlow =>
      obtain ⟨digits, hlen, rfl, hvalue⟩ := exists_digits_of_hex? hlow
      obtain rfl : low = hexValue digits := hvalue
      have hnot := h isHigh digits more rfl hlen
      exact if_neg fun hlow => absurd (hnot.symm.trans hlow) (by decide)
    · rfl
  · rfl

/-- An escape is read up to its end, and as its code point. -/
theorem codeEscape_text (e : CodeEscape) {rest : List Char} (h : e.Ends rest) :
    ∃ c cs, e.text ++ rest = c :: cs ∧ IsLead c ∧ codeEscape c cs = .ok (e.code, rest) := by
  cases e with
  | control c code known =>
    simp only [controlLetters, List.mem_cons, Prod.mk.injEq, List.not_mem_nil, or_false] at known
    obtain ⟨rfl, rfl⟩ | ⟨rfl, rfl⟩ | ⟨rfl, rfl⟩ | ⟨rfl, rfl⟩ | ⟨rfl, rfl⟩ := known <;>
      exact ⟨_, rest, rfl, isLead_of_mem (by simp), rfl⟩
  | null =>
    refine ⟨'0', rest, rfl, isLead_of_mem (by simp), ?_⟩
    have hnext : (rest.head?.all fun d => !d.isDigit) = true := by
      cases rest with
      | nil => rfl
      | cons c cs => simp [h c rfl]
    rw [codeEscape]
    exact if_pos ⟨rfl, hnext⟩
  | letter c isAlpha =>
    refine ⟨'c', c :: rest, rfl, isLead_of_mem (by simp), ?_⟩
    have hletter : letterEscape (c :: rest) = (c.toNat % 32, rest) := if_pos isAlpha
    rw [codeEscape]
    exact congrArg Except.ok hletter
  | byte digits two =>
    refine ⟨'x', hexDigits digits ++ rest, rfl, isLead_of_mem (by simp), ?_⟩
    have hhex := hex?_digits digits 0 rest
    rw [two] at hhex
    rw [codeEscape, hhex]
    rfl
  | unit digits four =>
    refine ⟨'u', hexDigits digits ++ rest, rfl, isLead_of_mem (by simp), ?_⟩
    have hu : codeEscape 'u' (hexDigits digits ++ rest) =
      unicodeEscape (hexDigits digits ++ rest) := rfl
    rw [hu, unicodeEscape_unit four]
    split
    · next hhigh => rw [lowEscape?_eq_none h hhigh]; rfl
    · rfl
  | pair high low fourHigh fourLow isHigh isLow =>
    refine ⟨'u', hexDigits high ++ '\\' :: 'u' :: (hexDigits low ++ rest), by simp [text],
      isLead_of_mem (by simp), ?_⟩
    have hu : ∀ cs, codeEscape 'u' cs = unicodeEscape cs := fun _ => rfl
    rw [hu, unicodeEscape_unit fourHigh, if_pos isHigh, lowEscape?_digits fourLow isLow]
    rfl
  | braced digits nonempty counted bounded =>
    refine ⟨'u', '{' :: (hexDigits digits ++ '}' :: rest), by simp [text],
      isLead_of_mem (by simp), ?_⟩
    have hu : ∀ cs, codeEscape 'u' cs = unicodeEscape cs := fun _ => rfl
    rw [hu, unicodeEscape,
      bracedHex?_digits digits 0 0 rest (.inr nonempty) (by omega) bounded]
    rfl
  | identity c other =>
    exact ⟨c, rest, rfl, isLead_of_not_alphanum other, codeEscape_identity other rest⟩

end CodeEscape

section Class

theorem ofLetter?_letter (named : NamedSet) (complement : Bool) :
    NamedSet.ofLetter? (named.letter complement) = some (named, complement) := by
  cases named <;> cases complement <;> rfl

theorem classAtom_code (c : ClassCode) {rest : List Char} (h : c.Ends rest) :
    ∃ x cs, c.text ++ rest = x :: cs ∧ x ≠ ']' ∧ classAtom x cs = .ok (.code c.code, rest) := by
  cases c with
  | raw c plain =>
    refine ⟨c, rest, rfl, plain.2.1, ?_⟩
    unfold classAtom
    rw [if_neg plain.2.2, if_neg plain.1]
    rfl
  | escape e =>
    obtain ⟨c, cs, htext, hlead, hcode⟩ := e.codeEscape_text h
    refine ⟨'\\', c :: cs, by rw [← htext]; rfl, by decide, ?_⟩
    rw [classAtom, if_neg (by decide), if_pos rfl]
    simp only [hlead.set]
    rw [if_neg hlead.boundary.1, if_neg hlead.property, hcode]
    rfl
  | backspace => exact ⟨'\\', 'b' :: rest, rfl, by decide, rfl⟩

theorem classAtoms_cons {c : Char} {cs rest : List Char} {a : ClassAtom} (hc : c ≠ ']')
    (h : classAtom c cs = .ok (a, rest)) :
    classAtoms (c :: cs) = (classAtoms rest).map fun r => (a :: r.1, r.2) := by
  rw [classAtoms, if_neg hc]
  split
  · next heq => rw [h] at heq; cases heq
  · next heq => rw [h] at heq; cases heq; rfl

/-- The text is that of the atoms, whatever follows it in a class. -/
def AtomText (cs : List Char) (atoms : List ClassAtom) (rest : List Char) : Prop :=
  classAtoms (cs ++ rest) = (classAtoms rest).map fun r => (atoms ++ r.1, r.2)

theorem AtomText.nil (rest : List Char) : AtomText [] [] rest := by
  rw [AtomText, List.nil_append]
  cases classAtoms rest <;> rfl

theorem AtomText.append {cs ds rest : List Char} {atoms more : List ClassAtom}
    (h : AtomText cs atoms (ds ++ rest)) (h' : AtomText ds more rest) :
    AtomText (cs ++ ds) (atoms ++ more) rest := by
  rw [AtomText] at *
  rw [List.append_assoc, h, h']
  cases classAtoms rest with
  | error e => rfl
  | ok r => simp [Except.map]

theorem AtomText.code {c : ClassCode} {rest : List Char} (h : c.Ends rest) :
    AtomText c.text [.code c.code] rest := by
  obtain ⟨x, cs, htext, hx, hatom⟩ := classAtom_code c h
  rw [AtomText, htext]
  exact classAtoms_cons hx hatom

theorem AtomText.dash (rest : List Char) : AtomText ['-'] [.dash] rest :=
  classAtoms_cons (by decide) rfl

def ClassMember.atoms : ClassMember → List ClassAtom
  | one c => [.code c.code]
  | range lo hi _ => [.code lo.code, .dash, .code hi.code]
  | set named complement => [.set (if complement then named.codes.complement else named.codes)]

def ClassMember.item : ClassMember → ClassItem
  | one c => .range c.code c.code
  | range lo hi _ => .range lo.code hi.code
  | set named complement => .set (if complement then named.codes.complement else named.codes)

theorem ClassCode.ends_dash (c : ClassCode) (rest : List Char) : c.Ends ('-' :: rest) := by
  cases c with
  | escape e =>
    cases e with
    | null => intro c hc; cases hc; decide
    | unit => intro _ low more heq; cases heq
    | _ => trivial
  | _ => trivial

theorem ClassMember.atomText (m : ClassMember) {rest : List Char} (h : m.Ends rest) :
    AtomText m.text m.atoms rest := by
  cases m with
  | one c => exact .code h
  | range lo hi le =>
    exact (AtomText.code (lo.ends_dash _)).append ((AtomText.dash _).append (.code h))
  | set named complement =>
    have hatom : classAtom '\\' (named.letter complement :: rest) =
        .ok (.set (if complement then named.codes.complement else named.codes), rest) := by
      rw [classAtom, if_neg (by decide), if_pos rfl]
      simp only [ofLetter?_letter]
    exact classAtoms_cons (by decide) hatom

theorem atomText_members {members : List ClassMember} {rest : List Char}
    (h : MembersDelimited members rest) :
    AtomText (members.flatMap ClassMember.text) (members.flatMap ClassMember.atoms) rest := by
  induction members with
  | nil => exact .nil rest
  | cons m members ih => exact (m.atomText h.1).append (ih h.2)

theorem ofAtoms_cons {a : ClassAtom} {atoms : List ClassAtom}
    (h : ∀ b rest, atoms ≠ .dash :: b :: rest) :
    ClassItem.ofAtoms (a :: atoms) = (ClassItem.ofAtoms atoms).map (ClassItem.ofAtom a :: ·) := by
  rw [ClassItem.ofAtoms]
  exact fun b rest heq => h b rest heq

def dashAtoms (dash : Bool) : List ClassAtom := if dash then [.dash] else []

theorem no_range (members : List ClassMember) (dash : Bool) (b : ClassAtom)
    (rest : List ClassAtom) :
    members.flatMap ClassMember.atoms ++ dashAtoms dash ≠ .dash :: b :: rest := by
  cases members with
  | nil => cases dash <;> exact fun h => by cases h
  | cons m members => cases m <;> exact fun h => by cases h

/-- Only the members that are ranges are read as ranges. -/
theorem ofAtoms_members (members : List ClassMember) (dash : Bool) :
    ClassItem.ofAtoms (members.flatMap ClassMember.atoms ++ dashAtoms dash) =
      .ok (members.map ClassMember.item ++ (dashAtoms dash).map ClassItem.ofAtom) := by
  induction members with
  | nil => cases dash <;> rfl
  | cons m members ih =>
    have hnext := no_range members dash
    rw [List.flatMap_cons, List.append_assoc, List.map_cons, List.cons_append]
    cases m with
    | one c => rw [ClassMember.atoms, List.singleton_append, ofAtoms_cons hnext, ih]; rfl
    | range lo hi le =>
      simp only [ClassMember.atoms, List.cons_append, List.nil_append, ClassItem.ofAtoms,
        ClassAtom.endpoint?]
      rw [if_neg (Nat.not_lt.2 le), ih]
      rfl
    | set named complement =>
      rw [ClassMember.atoms, List.singleton_append, ofAtoms_cons hnext, ih]
      rfl

/-- A class is read from its body, which begins with a `^` only where one stands before it. -/
theorem classToken_body {negated : Bool} {body : List Char}
    (hcaret : negated = false → body.head? ≠ some '^') :
    classToken ((if negated then ['^'] else []) ++ body) = (classAtoms body).bind fun r =>
      (ClassItem.ofAtoms r.1).map fun items => (.charClass negated items, r.2) := by
  unfold classToken
  split
  next isNegated text hopening =>
  obtain ⟨rfl, rfl⟩ : isNegated = negated ∧ text = body := by
    cases negated with
    | true => cases hopening; exact ⟨rfl, rfl⟩
    | false =>
      split at hopening
      · next heq => exact absurd (congrArg List.head? heq) (hcaret rfl)
      · cases hopening; exact ⟨rfl, rfl⟩
  cases classAtoms text <;> rfl

/-- A class is read from its atoms. -/
theorem classToken_eq {negated : Bool} {body rest : List Char} {atoms : List ClassAtom}
    (hcaret : negated = false → body.head? ≠ some '^')
    (hatoms : classAtoms body = .ok (atoms, rest)) :
    classToken ((if negated then ['^'] else []) ++ body) =
      (ClassItem.ofAtoms atoms).map fun items => (.charClass negated items, rest) := by
  rw [classToken_body hcaret, hatoms]
  rfl

/-- The body of a class behind the mark that negates it. -/
theorem exists_body (cs : List Char) : ∃ (negated : Bool) (body : List Char),
    cs = (if negated then ['^'] else []) ++ body ∧ (negated = false → body.head? ≠ some '^') := by
  by_cases hcaret : cs.head? = some '^'
  · obtain ⟨body, rfl⟩ := List.head?_eq_some_iff.1 hcaret
    exact ⟨true, body, rfl, fun h => by cases h⟩
  · exact ⟨false, cs, rfl, fun _ => hcaret⟩

namespace CharClass

/-- The members of the class with a `-` before and after them where there is one. -/
def items (c : CharClass) : List ClassItem :=
  (dashAtoms c.firstDash).map ClassItem.ofAtom ++ c.members.map ClassMember.item ++
    (dashAtoms c.lastDash).map ClassItem.ofAtom

theorem forall_items {P : ClassItem → Prop} (c : CharClass) (hdash : P .dash)
    (hmembers : ∀ m ∈ c.members, P m.item) : ∀ i ∈ c.items, P i := by
  have hdashes : ∀ dash, ∀ i ∈ (dashAtoms dash).map ClassItem.ofAtom, P i := by
    intro dash i hi
    obtain ⟨a, ha, rfl⟩ := List.mem_map.1 hi
    cases dash with
    | true => rw [List.mem_singleton.1 ha]; exact hdash
    | false => cases ha
  exact List.forall_mem_append.2
    ⟨List.forall_mem_append.2 ⟨hdashes _, List.forall_mem_map.2 hmembers⟩, hdashes _⟩

theorem ofAtoms_eq (c : CharClass) :
    ClassItem.ofAtoms (dashAtoms c.firstDash ++ (c.members.flatMap ClassMember.atoms ++
      dashAtoms c.lastDash)) = .ok c.items := by
  have hmembers := ofAtoms_members c.members c.lastDash
  rw [items]
  cases c.firstDash with
  | false => exact hmembers
  | true =>
    rw [dashAtoms, if_pos rfl, List.singleton_append, ofAtoms_cons (no_range _ _), hmembers,
      List.append_assoc]
    rfl

def body (c : CharClass) : List Char :=
  (if c.firstDash then ['-'] else []) ++ (c.members.flatMap ClassMember.text ++ c.closing)

theorem body_head (c : CharClass) (rest : List Char) (h : c.negated = false) :
    (c.body ++ rest).head? ≠ some '^' := by
  rw [body]
  rcases c.caret with hneg | hdash | hmembers
  · exact absurd (h.symm.trans hneg) (by decide)
  · rw [if_pos hdash]
    exact fun h => absurd (Option.some.inj h) (by decide)
  · cases c.firstDash with
    | true => exact fun h => absurd (Option.some.inj h) (by decide)
    | false =>
      cases hm : c.members with
      | nil =>
        rw [closing]
        cases c.lastDash <;> exact fun h => absurd (Option.some.inj h) (by decide)
      | cons m members =>
        rw [hm] at hmembers
        simp only [List.head?_cons, Option.all_some, ne_eq, decide_not, Bool.not_eq_true',
          decide_eq_false_iff_not] at hmembers
        have hne : m.text ≠ [] := by
          cases m with
          | one c => cases c <;> exact List.cons_ne_nil _ _
          | range lo hi => simp [ClassMember.text]
          | set => exact List.cons_ne_nil _ _
        obtain ⟨x, xs, hx⟩ := List.exists_cons_of_ne_nil hne
        rw [hx] at hmembers
        simpa [hx] using hmembers

theorem atomText_dash (dash : Bool) (rest : List Char) :
    AtomText (if dash then ['-'] else []) (dashAtoms dash) rest := by
  cases dash with
  | false => exact .nil rest
  | true => exact .dash rest

theorem classAtoms_body (c : CharClass) {rest : List Char} (h : c.Delimited rest) :
    classAtoms (c.body ++ rest) = .ok (dashAtoms c.firstDash ++
      (c.members.flatMap ClassMember.atoms ++ dashAtoms c.lastDash), rest) := by
  have hmembers : AtomText (c.members.flatMap ClassMember.text)
      (c.members.flatMap ClassMember.atoms)
      ((if c.lastDash then ['-'] else []) ++ (']' :: rest)) := by
    refine atomText_members ?_
    rwa [Delimited, closing, List.append_assoc] at h
  have hbody := (atomText_dash c.firstDash _).append (hmembers.append (atomText_dash c.lastDash _))
  have hclose : classAtoms (']' :: rest) = .ok ([], rest) := by rw [classAtoms, if_pos rfl]
  have hrest : c.body ++ rest = (if c.firstDash then ['-'] else []) ++
      (c.members.flatMap ClassMember.text ++ if c.lastDash then ['-'] else []) ++
        (']' :: rest) := by
    simp [body, closing]
  rw [hrest, hbody, hclose]
  simp [Except.map]

/-- A class is read to its end, and with its members. -/
theorem classToken_text (c : CharClass) {rest : List Char} (h : c.Delimited rest) :
    classToken (c.text ++ rest) = .ok (.charClass c.negated c.items, rest) := by
  have htext : c.text ++ rest = (if c.negated then ['^'] else []) ++ (c.body ++ rest) := by
    simp [text, body]
  rw [htext, classToken_eq (c.body_head rest) (c.classAtoms_body h), ofAtoms_eq]
  rfl

end CharClass

end Class

section Tokens

theorem scan_cons {c : Char} {cs rest : List Char} {t : Token}
    (h : Token.next c cs = .ok (t, rest)) :
    Token.scan (c :: cs) = (Token.scan rest).map (t :: ·) := by
  rw [Token.scan]
  split
  · next heq => rw [h] at heq; cases heq
  · next heq => rw [h] at heq; cases heq; rfl

theorem scan_error {c : Char} {cs : List Char} {e : PatternError}
    (h : Token.next c cs = .error e) : Token.scan (c :: cs) = .error e := by
  rw [Token.scan]
  split
  · next heq => rw [h] at heq; cases heq; rfl
  · next heq => rw [h] at heq; cases heq

/-- The text is scanned into the tokens, whatever follows it. -/
def TokenText (cs : List Char) (ts : List Token) (rest : List Char) : Prop :=
  Token.scan (cs ++ rest) = (Token.scan rest).map (ts ++ ·)

theorem TokenText.nil (rest : List Char) : TokenText [] [] rest := by
  rw [TokenText, List.nil_append]
  cases Token.scan rest <;> rfl

theorem TokenText.append {cs ds rest : List Char} {ts us : List Token}
    (h : TokenText cs ts (ds ++ rest)) (h' : TokenText ds us rest) :
    TokenText (cs ++ ds) (ts ++ us) rest := by
  rw [TokenText] at *
  rw [List.append_assoc, h, h']
  cases Token.scan rest with
  | error e => rfl
  | ok r => simp [Except.map]

theorem TokenText.token {c : Char} {cs rest : List Char} {t : Token}
    (h : Token.next c (cs ++ rest) = .ok (t, rest)) : TokenText (c :: cs) [t] rest :=
  scan_cons h

theorem TokenText.char {c : Char} {rest : List Char} {t : Token}
    (h : Token.next c rest = .ok (t, rest)) : TokenText [c] [t] rest :=
  scan_cons h

/-- The characters that are not taken as they stand. -/
def special : List Char := ['\\', '[', ']', '.', '(']

theorem next_raw {c : Char} (h : c ∉ special) (cs : List Char) :
    Token.next c cs = .ok (.raw c, cs) := by
  simp only [special, List.mem_cons, List.not_mem_nil, or_false, not_or] at h
  unfold Token.next
  rw [if_neg h.1, if_neg h.2.1, if_neg h.2.2.1, if_neg h.2.2.2.1, if_neg h.2.2.2.2]

theorem TokenText.raws {cs : List Char} (h : ∀ c ∈ cs, c ∉ special) (rest : List Char) :
    TokenText cs (cs.map .raw) rest := by
  induction cs with
  | nil => exact .nil rest
  | cons c cs ih =>
    obtain ⟨hc, hcs⟩ := List.forall_mem_cons.1 h
    exact (TokenText.char (next_raw hc (cs ++ rest))).append (ih hcs)

/-- An escape that is none of those with a meaning of their own stands for a code point. -/
theorem escape_eq_codeEscape {c : Char} {cs : List Char} (set : NamedSet.ofLetter? c = none)
    (boundary : c ≠ 'b' ∧ c ≠ 'B') (backref : ¬ ('1' ≤ c ∧ c ≤ '9'))
    (named : ¬ (c = 'k' ∧ cs.head? = some '<')) (property : ¬ (c = 'p' ∨ c = 'P')) :
    escape (c :: cs) = (codeEscape c cs).map fun r => (.code r.1, r.2) := by
  rw [escape]
  simp only [set]
  rw [if_neg boundary.1, if_neg boundary.2, if_neg backref, if_neg named, if_neg property]

namespace CharSource

def token : CharSource → Token
  | raw c _ => .raw c
  | escape e => .code e.code
  | dot => .dot
  | set named complement => .set named complement
  | cls c => .charClass c.negated c.items

theorem tokenText (c : CharSource) {rest : List Char} (h : c.Delimited rest) :
    TokenText c.text [c.token] rest := by
  cases c with
  | raw c plain =>
    refine TokenText.raws (List.forall_mem_singleton.2 fun hc => plain ?_) rest
    revert hc
    simp only [special, reserved, List.mem_cons, List.not_mem_nil, or_false]
    rintro (rfl | rfl | rfl | rfl | rfl) <;> decide
  | escape e =>
    obtain ⟨c, cs, htext, hlead, hcode⟩ := e.codeEscape_text h
    refine TokenText.token ?_
    rw [htext]
    unfold Token.next
    rw [if_pos rfl, escape_eq_codeEscape hlead.set hlead.boundary hlead.backref
      (fun hk => hlead.named hk.1) hlead.property, hcode]
    rfl
  | dot => exact TokenText.char rfl
  | set named complement =>
    refine TokenText.token ?_
    rw [List.singleton_append]
    unfold Token.next
    rw [if_pos rfl, Pattern.escape]
    simp only [ofLetter?_letter]
    rfl
  | cls c =>
    refine TokenText.token ?_
    unfold Token.next
    rw [if_neg (by decide), if_pos rfl]
    exact c.classToken_text h

end CharSource

theorem isAlphanum_not_special {c : Char} (h : c.isAlphanum = true ∨ c = '_' ∨ c = '$') :
    c ∉ special := by
  simp only [special, List.mem_cons, List.not_mem_nil, or_false]
  rintro (rfl | rfl | rfl | rfl | rfl) <;> revert h <;> decide

theorem GroupName.mem_chars (n : GroupName) {c : Char} (h : c ∈ n.chars) :
    c.isAlphanum = true ∨ c = '_' ∨ c = '$' := by
  rcases List.mem_cons.1 h with rfl | hrest
  · exact n.starts.imp_left fun halpha => by rw [Char.isAlphanum, halpha]; rfl
  · exact n.continues c hrest

theorem Quantifier.not_special (q : Quantifier) : ∀ c ∈ q.text, c ∉ special := by
  have hdigits : ∀ (ds : Digits), ∀ c ∈ ds.1, c ∉ special := fun ds c hc =>
    isAlphanum_not_special (.inl (by rw [Char.isAlphanum, ds.2.2 c hc, Bool.or_true]))
  cases q with
  | star | plus | optional => exact List.forall_mem_singleton.2 (by decide)
  | exactly n =>
    exact List.forall_mem_append.2
      ⟨List.forall_mem_cons.2 ⟨by decide, hdigits n⟩, by simp [special]⟩
  | atLeast n =>
    exact List.forall_mem_append.2
      ⟨List.forall_mem_cons.2 ⟨by decide, hdigits n⟩, by simp [special]⟩
  | between n m le =>
    exact List.forall_mem_append.2 ⟨List.forall_mem_append.2
      ⟨List.forall_mem_cons.2 ⟨by decide, hdigits n⟩,
        List.forall_mem_cons.2 ⟨by decide, hdigits m⟩⟩, by simp [special]⟩

theorem head_append {c : Char} {cs ds : List Char} (hcs : cs.head? ≠ some c)
    (hds : ds.head? ≠ some c) : (cs ++ ds).head? ≠ some c := by
  cases cs with
  | nil => exact hds
  | cons d cs => exact hcs

namespace Source

theorem head_atom (a : Source .atom) : ∃ c cs, a.text = c :: cs ∧ c ≠ '?' := by
  cases a with
  | char c =>
    cases c with
    | raw c plain => exact ⟨c, [], rfl, fun hc => plain (hc ▸ by decide)⟩
    | _ => exact ⟨_, _, rfl, by decide⟩
  | group kind body => cases kind <;> exact ⟨'(', _, rfl, by decide⟩

/-- No part of a pattern begins like a quantifier or what opens a special group. -/
theorem head_text {l : Level} (s : Source l) : s.text.head? ≠ some '?' := by
  induction s with
  | char c =>
    obtain ⟨c', cs, htext, hc⟩ := head_atom (char c)
    rw [htext]
    exact fun h => hc (Option.some.inj h)
  | group kind body =>
    obtain ⟨c', cs, htext, hc⟩ := head_atom (group kind body)
    rw [htext]
    exact fun h => hc (Option.some.inj h)
  | assertion a => cases a <;> exact fun hc => absurd (Option.some.inj hc) (by decide)
  | once a ih => exact ih
  | repeated a q reluctant _ =>
    obtain ⟨c', cs, htext, hc⟩ := head_atom a
    rw [text, htext]
    exact fun h => hc (Option.some.inj h)
  | empty => exact nofun
  | seq t more iht ihmore => exact head_append iht ihmore
  | last a ih => exact ih
  | alt a more iha _ => exact head_append iha fun hc => absurd (Option.some.inj hc) (by decide)

end Source

def GroupKind.tokens : GroupKind → List Token
  | capturing => [.raw '(']
  | plain => [.group .plain]
  | named name => .group .named :: (name.chars.map .raw ++ [.raw '>'])

def assertionTokens : Linear.Assertion → List Token
  | .start => [.raw '^']
  | .stop => [.raw '$']
  | .wordBoundary => [.boundary false]

/-- A parenthesis stands for itself unless a special group opens with it. -/
theorem next_paren {cs : List Char} (h : cs.head? ≠ some '?') :
    Token.next '(' cs = .ok (.raw '(', cs) := by
  unfold Token.next
  rw [if_neg (by decide), if_neg (by decide), if_neg (by decide), if_neg (by decide), if_pos rfl]
  split
  · exact absurd rfl h
  · rfl

theorem next_special (cs : List Char) :
    Token.next '(' ('?' :: cs) = (groupOpening cs).map fun r => (.group r.1, r.2) := rfl

/-- A name does not begin like what opens an assertion on the text behind. -/
theorem GroupName.first_ne (n : GroupName) : n.first ≠ '=' ∧ n.first ≠ '!' := by
  rcases n.starts with halpha | hsign | hsign
  · constructor <;> intro heq <;> rw [heq] at halpha <;> cases halpha
  · rw [hsign]; decide
  · rw [hsign]; decide

theorem groupOpening_name (n : GroupName) (cs : List Char) :
    groupOpening ('<' :: n.first :: cs) = .ok (.named, n.first :: cs) := by
  rw [groupOpening]
  · exact n.first_ne.1
  · exact n.first_ne.2

theorem GroupKind.tokenText (kind : GroupKind) {rest : List Char} (h : rest.head? ≠ some '?') :
    TokenText kind.text kind.tokens rest := by
  cases kind with
  | capturing => exact TokenText.char (next_paren h)
  | plain => exact TokenText.token rfl
  | named name =>
    have hopen : TokenText ['(', '?', '<'] [.group .named] (name.chars ++ ['>'] ++ rest) := by
      refine .token ((next_special _).trans ?_)
      exact congrArg (Except.map _) (groupOpening_name name _)
    have hname : ∀ c ∈ name.chars ++ ['>'], c ∉ special :=
      List.forall_mem_append.2
        ⟨fun c hc => isAlphanum_not_special (name.mem_chars hc), by simp [special]⟩
    have hraws := hopen.append (.raws hname rest)
    rw [List.map_append] at hraws
    exact hraws

namespace Source

def tokens : {l : Level} → Source l → List Token
  | _, char c => [c.token]
  | _, group kind body => kind.tokens ++ body.tokens ++ [.raw ')']
  | _, assertion a => assertionTokens a
  | _, once a => a.tokens
  | _, repeated a q reluctant =>
    a.tokens ++ (q.text ++ if reluctant then ['?'] else []).map .raw
  | _, empty => []
  | _, seq t rest => t.tokens ++ rest.tokens
  | _, last a => a.tokens
  | _, alt a rest => a.tokens ++ .raw '|' :: rest.tokens

/-- A pattern is scanned into its tokens. -/
theorem tokenText {l : Level} (s : Source l) {rest : List Char} (h : s.Delimited rest) :
    TokenText s.text s.tokens rest := by
  induction s generalizing rest with
  | char c => exact c.tokenText h
  | group kind body ih =>
    have hclose : TokenText [')'] [.raw ')'] rest := .raws (by simp [special]) rest
    have hhead : (body.text ++ ([')'] ++ rest)).head? ≠ some '?' :=
      head_append body.head_text fun hc => absurd (Option.some.inj hc) (by decide)
    rw [text, tokens, List.append_assoc, List.append_assoc]
    rw [← List.append_assoc] at hhead
    exact (kind.tokenText hhead).append ((ih h).append hclose)
  | assertion a =>
    cases a with
    | start | stop => exact .raws (by simp [text, assertionText, special]) rest
    | wordBoundary => exact TokenText.token rfl
  | once a ih => exact ih h
  | repeated a q reluctant ih =>
    have hq : ∀ c ∈ q.text ++ (if reluctant then ['?'] else []), c ∉ special := by
      refine List.forall_mem_append.2 ⟨q.not_special, ?_⟩
      cases reluctant <;> simp [special]
    rw [text, tokens, List.append_assoc]
    exact (ih h).append (.raws hq rest)
  | empty => exact .nil rest
  | seq t more iht ihmore => exact (iht h.1).append (ihmore h.2)
  | last a ih => exact ih h
  | alt a more iha ihmore =>
    have hbar : TokenText ['|'] [.raw '|'] (more.text ++ rest) := .raws (by simp [special]) _
    exact (iha h.1).append (hbar.append (ihmore h.2))

end Source

end Tokens

end JsonRules.Pattern
