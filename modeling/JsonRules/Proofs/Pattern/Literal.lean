import JsonRules.Proofs.Pattern.Backtrack.Tokens
import JsonRules.Proofs.Pattern.Linear.Tokens

/-!
# An escape stands for one character

A code point outside of a class is read as one set with nothing but itself, and what stands before
and after it is read as if it stood alone. This holds in both dialects, unless a token before it
absorbs it.
-/

namespace JsonRules.Pattern

open Linear (codeChars codeLevels)

/-- What the matcher of a dialect reads a pattern as. -/
def Dialect.Lexeme : Dialect → Type
  | linear => Linear.Lexeme
  | backtracking => Backtrack.Lexeme

def Dialect.lexer : (dialect : Dialect) → Lexer dialect.Lexeme
  | linear => Lexer.linear
  | backtracking => Lexer.backtracking

def Dialect.lexemes? (dialect : Dialect) (text : List Char) : Option (List dialect.Lexeme) :=
  dialect.lexer.scan text.length text

theorem Dialect.splits {dialect : Dialect} {ts : List Token} {after : List Char} (h : Scanned ts)
    (hapart : Apart dialect after ts) (hmark : after.head? ≠ some '?') :
    dialect.lexer.Splits (ts.flatMap (Token.text dialect)) after := by
  cases dialect with
  | linear =>
    exact Lexer.splits_of_step
      (fun _ _ hscanned hends rest => Linear.splits_token hscanned hends hmark rest) h hapart
  | backtracking =>
    exact Lexer.splits_of_step
      (fun _ _ hscanned hends rest => Backtrack.splits_token hscanned hends hmark rest) h hapart

theorem Dialect.reads {dialect : Dialect} {ts : List Token} (h : Scanned ts) :
    dialect.lexer.Reads (ts.flatMap (Token.text dialect))
      (dialect.lexemes? (ts.flatMap (Token.text dialect))) := by
  obtain ⟨xs?, hreads, -⟩ := Dialect.splits h (apart_nil dialect ts) (fun hc => by cases hc)
  rwa [Dialect.lexemes?, hreads.scan]

theorem EscapesCode.tokenText {cs after : List Char} {code : Nat} (h : EscapesCode cs code after) :
    TokenText cs [.code code] after := by
  cases h with
  | @code e _ ends => exact CharSource.tokenText (.escape e) ends
  | @letter c after isAlpha plain noName =>
    obtain ⟨hB, plain⟩ := not_or.1 (mt List.mem_cons.2 plain)
    have hne : ∀ x ∈ escapeLetters, c ≠ x := fun x hx heq => plain (heq ▸ hx)
    have hbackref : ¬ ('1' ≤ c ∧ c ≤ '9') := by
      rintro ⟨hlo, hhi⟩
      have hdigit := (isDigit_of_isAlpha isAlpha).symm.trans (isDigit_of_le hlo hhi)
      cases hdigit
    have hescape : EscapeReads (c :: after) (.code c.toNat) after :=
      .code (ofLetter?_plain plain) ⟨hne 'b' (by decide), hB⟩ hbackref (fun h => noName h.1 h.2)
        (not_or.2 ⟨hne 'p' (by decide), hne 'P' (by decide)⟩) (codeReads_letter isAlpha plain after)
    exact .token (next_eq_ok.2 (.escape hescape))
  | @backslash after noLetter =>
    have hescape : EscapeReads ('c' :: after) (.code 0x5C) ('c' :: after) :=
      .code rfl (by decide) (by decide) (by simp) (by decide) (.backslash noLetter)
    exact .char (next_eq_ok.2 (.escape hescape))

/-- A code point that no token before it absorbs is read as the set of itself, between what the
tokens before it and those after it are read as. The token stands for any escape of the code
point. -/
theorem lexemes_render {dialect : Dialect} {source : String} {rendering : Rendering} {code : Nat}
    {before after : List Token} (hrender : render source dialect = .ok rendering)
    (htokens : Token.scan source.toList = .ok (before ++ .code code :: after))
    (habsorbs : absorbs dialect code before = false) :
    dialect.lexemes? rendering.text = (do
      let xs ← dialect.lexemes? (before.flatMap (Token.text dialect))
      let ys ← dialect.lexemes? (after.flatMap (Token.text dialect))
      some (xs ++ dialect.lexer.set (codeChars code) (codeLevels code) :: ys)) ∧
    (∀ x, (codeChars code).has x = decide (x.toNat = code)) ∧
    ∀ cs rest, EscapesCode cs code rest → TokenText cs [.code code] rest := by
  refine ⟨?_, has_codeChars code, fun cs rest h => h.tokenText⟩
  have hscanned := scanned_of_scan htokens
  have hafter : Scanned after :=
    hscanned.suffix ((List.suffix_cons _ _).trans (List.suffix_append _ _))
  obtain ⟨xs?, hxs, hsplit⟩ := Dialect.splits hscanned.of_append (apart_codeText habsorbs _)
    (head_codeText_ne rfl (by decide) code _)
  have hbefore : dialect.lexemes? (before.flatMap (Token.text dialect)) = xs? := hxs.scan
  have hys : dialect.lexer.Reads (after.flatMap (Token.text dialect))
      (dialect.lexemes? (after.flatMap (Token.text dialect))) := Dialect.reads hafter
  have hwhole := (hsplit _ (Lexer.closed_code code _ _ hys)).scan
  rw [render, htokens] at hrender
  obtain rfl := Except.ok.inj hrender
  have htext : (Rendering.ofTokens dialect (before ++ .code code :: after)).text =
      before.flatMap (Token.text dialect) ++
        (codeText code ++ after.flatMap (Token.text dialect)) := by
    rw [Rendering.ofTokens, List.flatMap_append, List.flatMap_cons]
    rfl
  -- if either part is refused, so is the whole
  rw [htext, Dialect.lexemes?, hwhole, hbefore]
  cases xs? <;> cases dialect.lexemes? (after.flatMap (Token.text dialect)) <;> rfl

/-- Read with the digit before it, `\1\x31` would be one reference; with a letter it is not. -/
theorem lexemes_render_letter :
    Token.scan "(a)\\1\\x41{2}".toList = .ok ([.raw '(', .raw 'a', .raw ')', .backref ['1']] ++
      .code 0x41 :: [.raw '{', .raw '2', .raw '}']) ∧
    absorbs .backtracking 0x41 [.raw '(', .raw 'a', .raw ')', .backref ['1']] = false ∧
    Dialect.lexemes? .backtracking "(a)\\1A{2}".toList = some ([.openGroup (.capture none),
      .set (single 0x61), .closeGroup, .backref 1] ++
        .set (single 0x41) :: [.counted 2 (some 2) ['2', '}']]) := by
  have hscan : Token.scan "(a)\\1\\x41{2}".toList =
      .ok ([.raw '(', .raw 'a', .raw ')', .backref ['1']] ++
        .code 0x41 :: [.raw '{', .raw '2', .raw '}']) := by decide +kernel
  have habsorbs : absorbs .backtracking 0x41 [.raw '(', .raw 'a', .raw ')', .backref ['1']] =
      false := by decide
  have hrender : render "(a)\\1\\x41{2}" .backtracking = .ok (.ofTokens .backtracking
      ([.raw '(', .raw 'a', .raw ')', .backref ['1']] ++
        .code 0x41 :: [.raw '{', .raw '2', .raw '}'])) := by
    rw [render, hscan]
    rfl
  exact ⟨hscan, habsorbs, (lexemes_render hrender hscan habsorbs).1⟩

/-- After a reference, an escaped digit goes on with its number; after a brace that is taken as it
stands, with the counts of a repetition. -/
theorem lexemes_render_digit :
    Token.scan "(a)\\1\\x31".toList = .ok [.raw '(', .raw 'a', .raw ')', .backref ['1'],
      .code 0x31] ∧
    Dialect.lexemes? .backtracking ((Rendering.ofTokens .backtracking [.raw '(', .raw 'a', .raw ')',
      .backref ['1'], .code 0x31]).text) = some [.openGroup (.capture none), .set (single 0x61),
        .closeGroup, .backref 11] ∧
    Token.scan "a\x7b\\x32\x7d".toList = .ok [.raw 'a', .raw '{', .code 0x32, .raw '}'] ∧
    Dialect.lexemes? .linear ((Rendering.ofTokens .linear [.raw 'a', .raw '{', .code 0x32,
      .raw '}']).text) = some [.set (single 0x61) 0, .rep 2 (some 2) true] := by
  exact ⟨by decide +kernel, rfl, by decide +kernel, rfl⟩

end JsonRules.Pattern
