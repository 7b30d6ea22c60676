import JsonRules.Pattern.Spelling
import JsonRules.Proofs.Pattern.Composition
import JsonRules.Proofs.Pattern.Literal

/-!
# A character means itself, however it is spelled

Every way to spell a character is one token, and the text of that token is one literal of the
matchers whatever stands around it. Escapes for the units of UTF-16 are joined from left to right: a
unit is read with the one behind it exactly if the two are a surrogate pair.
-/

namespace JsonRules.Pattern

open Linear
open Unicode (maxCode)

section Literals

/-- The lexeme of a literal. The one that never matches is a class of its own. -/
def Dialect.literal (dialect : Dialect) : Option Char → dialect.Lexeme
  | some c => dialect.lexer.set (single c.toNat) 0
  | none => dialect.lexer.set [] 1

/-- The source is written as the literals, one after the other, and read back as these. -/
def WrittenAs (dialect : Dialect) (source : List Char) (literals : List (Option Char)) : Prop :=
  ∃ texts, render (String.ofList source) dialect = .ok ⟨texts.flatten, false⟩ ∧
    List.Forall₂ LiteralText literals texts ∧
    dialect.lexemes? texts.flatten = some (literals.map dialect.literal)

inductive LiteralToken : Option Char → Token → Prop
  | raw {c : Char} (plain : c ∉ reserved) : LiteralToken (some c) (.raw c)
  | scalar (c : Char) : LiteralToken (some c) (.code c.toNat)
  | surrogate {code : Nat} (h : isSurrogate code = true) : LiteralToken none (.code code)

variable {x : Option Char} {t : Token} {dialect : Dialect}

theorem literalToken_code {code : Nat} (h : code ≤ maxCode) :
    LiteralToken (charOf? code) (.code code) := by
  rw [charOf?]
  split
  · next hsurrogate => exact .surrogate hsurrogate
  · next hscalar =>
    have hcode : IsScalar code := by
      simp only [isSurrogate, isHighSurrogate, isLowSurrogate, Bool.or_eq_true, Bool.and_eq_true,
        decide_eq_true_iff] at hscalar
      unfold IsScalar
      omega
    have htoken := LiteralToken.scalar (Char.ofNat code)
    rwa [toNat_ofNat hcode] at htoken

theorem LiteralToken.not_backtracks (h : LiteralToken x t) : t.backtracks = false := by
  cases h <;> rfl

theorem literalText_code (c : Char) : LiteralText (some c) (codeText c.toNat) := by
  have hform := codeForm c.toNat
  generalize hcode : c.toNat = code at hform
  generalize codeText code = text at hform
  cases hform with
  | surrogate h => exact absurd (hcode ▸ h) (by rw [isSurrogate_toNat]; decide)
  | number => exact hcode ▸ .number
  | escaped h =>
    obtain rfl := Char.toNat_inj.1 hcode
    exact .escaped h
  | plain isPlain =>
    obtain rfl := Char.toNat_inj.1 hcode
    have hmeta : ∀ d ∈ reserved, isMeta d = true := by simp [reserved, isMeta]
    exact .plain fun hreserved => absurd (isPlain.symm.trans (hmeta c hreserved)) (by decide)

theorem LiteralToken.literalText (h : LiteralToken x t) : LiteralText x (t.text dialect) := by
  cases h with
  | raw plain => exact .plain plain
  | scalar c => exact literalText_code c
  | surrogate h =>
    rw [Token.text, codeText, if_pos h]
    exact .never

theorem LiteralToken.whole (h : LiteralToken x t) :
    dialect.lexer.Whole (t.text dialect) (some (dialect.literal x)) := by
  cases h with
  | raw plain =>
    have hmarks : ∀ c ∈ lexemeMarks, c ∈ reserved := by simp [lexemeMarks, reserved]
    exact Lexer.whole_plain fun hmark => plain (hmarks _ hmark)
  | scalar c =>
    have hwhole := Lexer.whole_code (x := dialect.lexer) c.toNat
    rwa [(codeChars_of_scalar (isSurrogate_toNat c)).1,
      (codeChars_of_scalar (isSurrogate_toNat c)).2] at hwhole
  | @surrogate code h =>
    have hwhole := Lexer.whole_code (x := dialect.lexer) code
    rwa [codeChars, codeLevels, if_pos h, if_pos h] at hwhole

variable {literals : List (Option Char)} {ts : List Token} {source : List Char}

/-- Literals are read one by one, whatever follows them. -/
theorem closed_literals (h : List.Forall₂ LiteralToken literals ts) :
    dialect.lexer.Closed (ts.flatMap (Token.text dialect))
      (some (literals.map dialect.literal)) := by
  induction h with
  | nil =>
    intro rest ys? hrest
    cases ys? <;> exact hrest
  | cons hfirst _ ih => exact hfirst.whole.closed.append ih

theorem any_backtracks_literals (h : List.Forall₂ LiteralToken literals ts) :
    ts.any Token.backtracks = false := by
  induction h with
  | nil => rfl
  | cons hfirst _ ih => rw [List.any_cons, hfirst.not_backtracks, ih, Bool.or_self]

/-- A source whose tokens stand for literals is written as these. -/
theorem writtenAs_of_scan (h : List.Forall₂ LiteralToken literals ts)
    (hscan : Token.scan source = .ok ts) : WrittenAs dialect source literals := by
  refine ⟨ts.map (Token.text dialect), ?_, ?_, ?_⟩
  · rw [render_eq_ok]
    refine ⟨ts, by rw [String.toList_ofList]; exact hscan, ?_⟩
    rw [Rendering.ofTokens, any_backtracks_literals h, List.flatMap_def]
  · exact List.forall₂_map_right_iff.2 (h.imp fun _ _ ht => ht.literalText)
  · rw [← List.flatMap_def]
    have hclosed : dialect.lexer.Closed (ts.flatMap (Token.text dialect))
        (some (literals.map dialect.literal)) := closed_literals h
    have hreads := hclosed _ _ .nil
    rw [List.append_nil] at hreads
    rw [Dialect.lexemes?, hreads.scan]
    simp [Lexer.joined]

end Literals

section Spellings

variable {c : Char} {text : List Char}

/-- A spelling ends where the next one begins: a surrogate that is spelled alone is no character. -/
theorem Spells.exists_token (h : Spells c text) :
    ∃ t, LiteralToken (some c) t ∧ ∀ rest, TokenText text [t] rest := by
  cases h with
  | raw plain => exact ⟨_, .raw plain, fun _ => CharSource.tokenText (.raw c plain) trivial⟩
  | @escape e stands noNull =>
    have hends : ∀ rest, e.Ends rest := fun rest => by
      cases e with
      | null => exact absurd rfl noNull
      | unit digits four =>
        intro isHigh
        have hscalar : isSurrogate (hexValue digits) = false := by
          rw [show hexValue digits = c.toNat from stands, isSurrogate_toNat]
        rw [isSurrogate, isHigh, Bool.true_or] at hscalar
        cases hscalar
      | _ => trivial
    have htoken := LiteralToken.scalar c
    rw [← stands] at htoken
    exact ⟨_, htoken, fun rest => CharSource.tokenText (.escape e) (hends rest)⟩

theorem scan_of_spells {chars : List Char} {parts : List (List Char)}
    (h : List.Forall₂ Spells chars parts) :
    ∃ ts, List.Forall₂ LiteralToken (chars.map some) ts ∧
      Token.scan parts.flatten = .ok ts := by
  induction h with
  | nil => exact ⟨[], .nil, by rw [List.flatten_nil, Token.scan]⟩
  | cons hfirst _ ih =>
    obtain ⟨t, ht, htext⟩ := hfirst.exists_token
    obtain ⟨ts, hts, hscan⟩ := ih
    refine ⟨t :: ts, .cons ht hts, ?_⟩
    rw [List.flatten_cons, htext, hscan]
    rfl

end Spellings

section Units

theorem CodeUnit.value_le (u : CodeUnit) : u.value ≤ maxCode :=
  (CodeEscape.unit u.digits u.four).code_le

/-- The unit before a low surrogate ends where that begins, unless it is a high one. -/
theorem CodeUnit.ends_unit {u v : CodeUnit} (rest : List Char)
    (apart : (isHighSurrogate u.value && isLowSurrogate v.value) = false) :
    (CodeEscape.unit u.digits u.four).Ends (v.text ++ rest) := by
  intro isHigh low more htext hlen
  have hisHigh : isHighSurrogate u.value = true := isHigh
  have hdigits : hexDigits v.digits ++ rest = hexDigits low ++ more := by
    rw [CodeUnit.text] at htext
    exact (List.cons.inj (List.cons.inj htext).2).2
  have hlength : (hexDigits v.digits).length = (hexDigits low).length := by
    rw [hexDigits, hexDigits, List.length_map, List.length_map, v.four, hlen]
  have hsame : low = v.digits :=
    (List.map_injective_iff.2 Subtype.val_injective (List.append_inj_left hdigits hlength)).symm
  rw [hisHigh, Bool.true_and] at apart
  rw [hsame]
  exact apart

theorem charOf?_supplementary {code : Nat} (h : 0x10000 ≤ code) :
    charOf? code = some (Char.ofNat code) := by
  have hscalar : isSurrogate code = false := by
    rw [isSurrogate, isHighSurrogate, isLowSurrogate]
    simp only [Bool.or_eq_false_iff, Bool.and_eq_false_iff, decide_eq_false_iff_not]
    omega
  rw [charOf?, hscalar]
  rfl

def pairCode (u v : CodeUnit) : Nat := 0x10000 + (u.value - 0xD800) * 0x400 + (v.value - 0xDC00)

theorem tokenText_unit {u : CodeUnit} {rest : List Char}
    (ends : (CodeEscape.unit u.digits u.four).Ends rest) : TokenText u.text [.code u.value] rest :=
  CharSource.tokenText (.escape (.unit u.digits u.four)) ends

/-- A pair is one token, and stands for the character of its code point. -/
theorem tokenText_pair {u v : CodeUnit} (isHigh : isHighSurrogate u.value = true)
    (isLow : isLowSurrogate v.value = true) (rest : List Char) :
    LiteralToken (some (Char.ofNat (pairCode u v))) (.code (pairCode u v)) ∧
      TokenText (u.text ++ v.text) [.code (pairCode u v)] rest := by
  have htoken : TokenText (u.text ++ v.text) [.code (pairCode u v)] rest :=
    CharSource.tokenText (.escape (.pair u.digits v.digits u.four v.four isHigh isLow)) trivial
  have hliteral := literalToken_code
    (CodeEscape.pair u.digits v.digits u.four v.four isHigh isLow).code_le
  have hlarge : 0x10000 ≤ pairCode u v := by
    unfold pairCode
    omega
  refine ⟨?_, htoken⟩
  rw [← charOf?_supplementary hlarge]
  exact hliteral

/-- Units are read from left to right, each by itself or the two of a pair together. -/
theorem scan_of_units : ∀ units : List CodeUnit,
    ∃ ts, List.Forall₂ LiteralToken (decodeUtf16 (units.map CodeUnit.value)) ts ∧
      Token.scan (units.flatMap CodeUnit.text) = .ok ts
  | [] => ⟨[], .nil, by rw [List.flatMap_nil, Token.scan]⟩
  | [u] => by
    have hends : (CodeEscape.unit u.digits u.four).Ends [] := fun _ _ _ heq => by cases heq
    refine ⟨[.code u.value], .cons (literalToken_code u.value_le) .nil, ?_⟩
    rw [List.flatMap_singleton, ← List.append_nil u.text, tokenText_unit hends, Token.scan]
    rfl
  | u :: v :: rest => by
    rw [List.map_cons, List.map_cons, decodeUtf16]
    split
    · next hpair =>
      obtain ⟨isHigh, isLow⟩ := Bool.and_eq_true_iff.1 hpair
      obtain ⟨ts, hts, hscan⟩ := scan_of_units rest
      obtain ⟨hliteral, htext⟩ := tokenText_pair isHigh isLow (rest.flatMap CodeUnit.text)
      refine ⟨.code (pairCode u v) :: ts, .cons hliteral hts, ?_⟩
      rw [List.flatMap_cons, List.flatMap_cons, ← List.append_assoc, htext, hscan]
      rfl
    · next hpair =>
      obtain ⟨ts, hts, hscan⟩ := scan_of_units (v :: rest)
      have hends : (CodeEscape.unit u.digits u.four).Ends ((v :: rest).flatMap CodeUnit.text) :=
        CodeUnit.ends_unit _ (Bool.eq_false_iff.2 hpair)
      refine ⟨.code u.value :: ts, .cons (literalToken_code u.value_le) hts, ?_⟩
      rw [List.flatMap_cons, tokenText_unit hends, hscan]
      rfl

end Units

/-- Digits in braces that cannot be counted are an error, whatever follows them. -/
theorem render_uncounted {digits : List HexDigit} (hmany : Word.countLimit ≤ digits.length)
    (rest : List Char) (dialect : Dialect) :
    render (String.ofList ('\\' :: 'u' :: '{' :: (hexDigits digits ++ rest))) dialect =
      .error (.invalidEscape 'u') := by
  have hnone : bracedHex? 0 0 (hexDigits digits ++ rest) = none :=
    bracedHex?_uncounted (by decide) (by rwa [Nat.zero_add]) 0 rest
  have hcode : codeEscape 'u' ('{' :: (hexDigits digits ++ rest)) =
      .error (.invalidEscape 'u') := by
    show unicodeEscape ('{' :: (hexDigits digits ++ rest)) = _
    rw [unicodeEscape, hnone]
  have hnext : Token.next '\\' ('u' :: '{' :: (hexDigits digits ++ rest)) =
      .error (.invalidEscape 'u') := by
    show (codeEscape 'u' ('{' :: (hexDigits digits ++ rest))).map _ = _
    rw [hcode]
    rfl
  rw [render, String.toList_ofList, scan_error hnext]
  rfl

/-- However it is spelled, a character means itself. Escapes of UTF-16 units mean what the units are
decoded as, and any spellings of characters mean these. Only a number with more digits than can be
counted spells nothing and is an error. -/
theorem writtenAs_spelled (dialect : Dialect) :
    (∀ units : List CodeUnit,
      WrittenAs dialect (units.flatMap CodeUnit.text) (decodeUtf16 (units.map CodeUnit.value))) ∧
    (∀ (chars : List Char) (parts : List (List Char)), List.Forall₂ Spells chars parts →
      WrittenAs dialect parts.flatten (chars.map some)) ∧
    ∀ (digits : List HexDigit) (rest : List Char), Word.countLimit ≤ digits.length →
      render (String.ofList ('\\' :: 'u' :: '{' :: (hexDigits digits ++ rest))) dialect =
        .error (.invalidEscape 'u') := by
  refine ⟨fun units => ?_, fun chars parts h => ?_,
    fun digits rest hmany => render_uncounted hmany rest dialect⟩
  · obtain ⟨ts, hts, hscan⟩ := scan_of_units units
    exact writtenAs_of_scan hts hscan
  · obtain ⟨ts, hts, hscan⟩ := scan_of_spells h
    exact writtenAs_of_scan hts hscan

/-- A pair stands between two surrogates that are left alone; then four characters are each spelled
by an escape of another kind. -/
theorem writtenAs_spelled_pair :
    WrittenAs .linear "\\uDC00\\uD83D\\uDCA9\\uD83D".toList [none, some '💩', none] ∧
    List.Forall₂ Spells ['a', '💩', '-', '\n']
      ["\\u\x7b0061\x7d".toList, "\\uD83D\\udca9".toList, "\\-".toList, "\\cJ".toList] ∧
    WrittenAs .linear "\\u\x7b0061\x7d\\uD83D\\udca9\\-\\cJ".toList
      [some 'a', some '💩', some '-', some '\n'] := by
  obtain ⟨hunits, hspelled, -⟩ := writtenAs_spelled .linear
  have hbraced : Spells 'a' "\\u\x7b0061\x7d".toList :=
    .escape (e := .braced [⟨'0', rfl⟩, ⟨'0', rfl⟩, ⟨'6', rfl⟩, ⟨'1', rfl⟩] (by decide) (by decide) (by decide))
      rfl nofun
  have hpair : Spells '💩' "\\uD83D\\udca9".toList :=
    .escape (e := .pair [⟨'D', rfl⟩, ⟨'8', rfl⟩, ⟨'3', rfl⟩, ⟨'D', rfl⟩]
      [⟨'d', rfl⟩, ⟨'c', rfl⟩, ⟨'a', rfl⟩, ⟨'9', rfl⟩] rfl rfl rfl rfl) rfl nofun
  have hdash : Spells '-' "\\-".toList := .escape (e := .identity '-' rfl) rfl nofun
  have hcontrol : Spells '\n' "\\cJ".toList := .escape (e := .letter 'J' rfl) rfl nofun
  have hparts : List.Forall₂ Spells ['a', '💩', '-', '\n']
      ["\\u\x7b0061\x7d".toList, "\\uD83D\\udca9".toList, "\\-".toList, "\\cJ".toList] :=
    .cons hbraced (.cons hpair (.cons hdash (.cons hcontrol .nil)))
  have htext : ["\\u\x7b0061\x7d".toList, "\\uD83D\\udca9".toList, "\\-".toList,
      "\\cJ".toList].flatten = "\\u\x7b0061\x7d\\uD83D\\udca9\\-\\cJ".toList := by decide
  have hwritten := hspelled _ _ hparts
  rw [htext] at hwritten
  refine ⟨?_, hparts, hwritten⟩
  exact hunits [⟨[⟨'D', rfl⟩, ⟨'C', rfl⟩, ⟨'0', rfl⟩, ⟨'0', rfl⟩], rfl⟩,
    ⟨[⟨'D', rfl⟩, ⟨'8', rfl⟩, ⟨'3', rfl⟩, ⟨'D', rfl⟩], rfl⟩,
    ⟨[⟨'D', rfl⟩, ⟨'C', rfl⟩, ⟨'A', rfl⟩, ⟨'9', rfl⟩], rfl⟩,
    ⟨[⟨'D', rfl⟩, ⟨'8', rfl⟩, ⟨'3', rfl⟩, ⟨'D', rfl⟩], rfl⟩]

/-- The escape of a null that has `2^31` digits is not written as a null, nor at all. -/
theorem not_writtenAs_overlong : hexValue overlongDigits = '\x00'.toNat ∧
    ¬ WrittenAs .linear ('\\' :: 'u' :: '{' :: (hexDigits overlongDigits ++ ['}']))
      [some '\x00'] := by
  refine ⟨hexValue_zeros _, ?_⟩
  rintro ⟨texts, hrender, -, -⟩
  rw [render_uncounted (Nat.le_of_eq length_overlongDigits.symm)] at hrender
  cases hrender

end JsonRules.Pattern
