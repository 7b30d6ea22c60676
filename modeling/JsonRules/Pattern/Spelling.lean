import JsonRules.Pattern.Rendering
import JsonRules.Pattern.Source

/-!
# Ways to write a character

A character outside of a class is spelled by itself or by an escape. Escapes of four digits spell
the units of a text in UTF-16, where a pair of surrogates is one character and a surrogate that is
left alone is none. On the other side, a matcher takes a literal as the character itself, behind a
backslash, or by its number; the literal that is no character is a class without members.
-/

namespace JsonRules.Pattern

/-- The text spells the character. A null that is written as a digit is left out, since it depends
on what follows it. -/
inductive Spells (c : Char) : List Char → Prop
  | raw (plain : c ∉ reserved) : Spells c [c]
  | escape {e : CodeEscape} (stands : e.code = c.toNat) (noNull : e ≠ .null) :
      Spells c ('\\' :: e.text)

/-- A unit of UTF-16 with the four digits that it is written in. -/
structure CodeUnit where
  digits : List HexDigit
  four : digits.length = 4

namespace CodeUnit

def value (u : CodeUnit) : Nat := hexValue u.digits

def text (u : CodeUnit) : List Char := '\\' :: 'u' :: hexDigits u.digits

end CodeUnit

/-- The character of a code point; a surrogate is none. -/
def charOf? (code : Nat) : Option Char := if isSurrogate code then none else some (Char.ofNat code)

/-- The characters of a text in UTF-16, with `none` for a surrogate that is not one of a pair. -/
def decodeUtf16 : List Nat → List (Option Char)
  | [] => []
  | [unit] => [charOf? unit]
  | high :: low :: rest =>
    if isHighSurrogate high && isLowSurrogate low then
      some (Char.ofNat (0x10000 + (high - 0xD800) * 0x400 + (low - 0xDC00))) :: decodeUtf16 rest
    else charOf? high :: decodeUtf16 (low :: rest)

/-- How a literal is written in the syntax of the matchers, where `none` never matches. -/
inductive LiteralText : Option Char → List Char → Prop
  | plain {c : Char} (plain : c ∉ reserved) : LiteralText (some c) [c]
  | escaped {c : Char} (isMeta : isMeta c = true) : LiteralText (some c) ['\\', c]
  | number {c : Char} : LiteralText (some c) (hexText c.toNat)
  | never : LiteralText none noneText

end JsonRules.Pattern
