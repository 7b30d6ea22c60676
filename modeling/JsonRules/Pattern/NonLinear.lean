import JsonRules.Pattern.Linear.Reader

/-!
# Patterns beyond the linear matcher

What in a pattern only a backtracking matcher can match: assertions about the text ahead and behind,
references back, and `\B`. Each of them starts with a mark. A pattern is `NonLinear` if a mark
stands where one of its parts starts, outside of the character classes; it is read without
translating it, and an escape whose operand can hold no mark is read as its first two characters.

On the other side, `Linear.Reaches` says how far the linear matcher reads a text, lexeme by lexeme,
and `foreignMarks` what it must never come to.
-/

namespace JsonRules.Pattern

def BeginsWith (marks : List String) (cs : List Char) : Prop := ∃ mark ∈ marks, mark.toList <+: cs

/-- What opens an assertion about the text ahead or behind. -/
def lookMarks : List String := ["(?=", "(?!", "(?<=", "(?<!"]

/-- What starts the parts of a pattern that the linear matcher cannot match. -/
def nonLinearMarks : List String :=
  lookMarks ++ ["\\k<", "\\B", "\\1", "\\2", "\\3", "\\4", "\\5", "\\6", "\\7", "\\8", "\\9"]

/-- The text after an escape, given the one after its backslash. The name of a Unicode property
belongs to the escape whatever it is. -/
inductive AfterEscape : List Char → List Char → Prop
  | char {c : Char} {cs : List Char} (plain : c ≠ 'p' ∧ c ≠ 'P') : AfterEscape (c :: cs) cs
  | named {letter : Char} {name cs : List Char} (isProperty : letter = 'p' ∨ letter = 'P')
      (closed : '}' ∉ name) : AfterEscape (letter :: '{' :: (name ++ '}' :: cs)) cs
  | short {letter c : Char} {cs : List Char} (isProperty : letter = 'p' ∨ letter = 'P')
      (unnamed : c ≠ '{') : AfterEscape (letter :: c :: cs) cs

/-- The text after a character class, given the one after its opening bracket. -/
inductive AfterClass : List Char → List Char → Prop
  | close {cs : List Char} : AfterClass (']' :: cs) cs
  | char {c : Char} {cs rest : List Char} (plain : c ≠ ']' ∧ c ≠ '\\') (more : AfterClass cs rest) :
      AfterClass (c :: cs) rest
  | escape {cs mid rest : List Char} (escaped : AfterEscape cs mid) (more : AfterClass mid rest) :
      AfterClass ('\\' :: cs) rest

/-- A mark stands at the beginning of the text, or where a later part of it starts. -/
inductive NonLinear : List Char → Prop
  | here {cs : List Char} (mark : BeginsWith nonLinearMarks cs) : NonLinear cs
  | char {c : Char} {cs : List Char} (plain : c ≠ '\\' ∧ c ≠ '[') (more : NonLinear cs) :
      NonLinear (c :: cs)
  | escape {cs rest : List Char} (escaped : AfterEscape cs rest) (more : NonLinear rest) :
      NonLinear ('\\' :: cs)
  | charClass {cs rest : List Char} (bracketed : AfterClass cs rest) (more : NonLinear rest) :
      NonLinear ('[' :: cs)

/-- How assertions about the text ahead or behind and references back begin in the syntax of a
matcher that has them. -/
def foreignMarks : List String :=
  lookMarks ++ ["(?P=", "\\k", "\\0", "\\1", "\\2", "\\3", "\\4", "\\5", "\\6", "\\7", "\\8", "\\9"]

/-- The linear matcher comes to the second text when it reads the first one. -/
inductive Linear.Reaches (text : List Char) : List Char → Prop
  | start : Reaches text text
  | next {c : Char} {cs rest : List Char} {lexeme : Lexeme} (here : Reaches text (c :: cs))
      (read : Lexeme.next? c cs = some (lexeme, rest)) : Reaches text rest

end JsonRules.Pattern
