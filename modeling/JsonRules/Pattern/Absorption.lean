import JsonRules.Pattern.ClassGrammar
import JsonRules.Pattern.Rendering

/-!
# Code points that are read together with what stands before them

A code point that is escaped outside of a class is written as its character where that has no
meaning of its own.
After some tokens it has one: a digit goes on with the number of a reference, a digit or a comma
with the counts of a repetition, and any character with the name of a group.
-/

namespace JsonRules.Pattern

/-- The text before the given one is the escape of a single code point outside of a class. -/
inductive EscapesCode : List Char → Nat → List Char → Prop
  | code {e : CodeEscape} {after : List Char} (ends : e.Ends after) :
      EscapesCode ('\\' :: e.text) e.code after
  /-- A letter whose escape has no meaning stands for itself. -/
  | letter {c : Char} {after : List Char} (isAlpha : c.isAlpha = true)
      (plain : c ∉ 'B' :: escapeLetters) (noName : c = 'k' → after.head? ≠ some '<') :
      EscapesCode ['\\', c] c.toNat after
  /-- A backslash before a `c` that no letter follows stands for itself. -/
  | backslash {after : List Char} (noLetter : ∀ c, after.head? = some c → c.isAlpha = false) :
      EscapesCode ['\\'] 0x5C ('c' :: after)

/-- The characters of the counts of a repetition; only the linear matcher takes blanks in them. -/
def isCountChar : Dialect → Char → Bool
  | .linear, c => c.isDigit || c == ',' || Unicode.isWhiteSpace c
  | .backtracking, c => c.isDigit || c == ','

/-- The token and the text after it are read together with a character that follows them. -/
def Token.absorbs (dialect : Dialect) (text : List Char) (c : Char) : Token → Bool
  | backref _ => text.all Char.isDigit && c.isDigit
  | raw mark => mark == '{' && text.all (isCountChar dialect) && (c.isDigit || c == ',')
  | group opening => opening == .named && !text.contains '>'
  | _ => false

/-- One of the tokens is read together with a code point that is written after them. -/
def absorbs (dialect : Dialect) (code : Nat) : List Token → Bool
  | [] => false
  | t :: ts =>
    t.absorbs dialect (ts.flatMap (Token.text dialect)) (Char.ofNat code) || absorbs dialect code ts

end JsonRules.Pattern
