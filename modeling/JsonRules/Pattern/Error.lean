/-!
# Pattern errors

Why a pattern is refused when it is compiled, or stops while it is matched.
-/

namespace JsonRules

inductive PatternError where
  /-- The pattern ends with a backslash. -/
  | trailingEscape
  | invalidEscape (letter : Char)
  | invalidGroup
  | unterminatedClass
  /-- A class range ends before it starts. -/
  | classRange
  /-- The matcher does not accept the pattern in its own syntax. -/
  | refused
  /-- A match took more steps back than it may. -/
  | stepLimit
  deriving DecidableEq, Repr

namespace PatternError

/-- The text of an error; a matcher's own diagnostics are not part of it. -/
def message : PatternError → String
  | trailingEscape => "pattern ends with a dangling escape"
  | invalidEscape letter => "invalid escape '\\" ++ letter.toString ++ "'"
  | invalidGroup => "invalid group syntax"
  | unterminatedClass => "unterminated character class"
  | classRange => "character class range out of order"
  | refused => "<engine>"
  | stepLimit => "Error executing regex: Max limit for backtracking count exceeded"

end PatternError

end JsonRules
