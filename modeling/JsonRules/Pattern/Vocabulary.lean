import JsonRules.Pattern.NonLinear
import JsonRules.Pattern.Rendering

/-!
# The syntax that a pattern is written in

A matcher has syntax that a pattern cannot ask for: flags, atomic groups, escapes of its own, sets
within sets. What is written for it is read here from left to right, past characters, escapes and
classes. At each place that the reader comes to `Outside` of these stands something of a small
vocabulary. The names of properties and of groups that are referred to are taken as they are.
-/

namespace JsonRules.Pattern

open Text (upperHex)

/-- The reader goes on from the first text to the second. -/
inductive Passes : List Char → List Char → Prop
  | boundary {cs rest : List Char} (isBoundary : cs = linearBoundaryText ++ rest) : Passes cs rest
  | char {c : Char} {cs : List Char} (plain : c ≠ '\\' ∧ c ≠ '[')
      (other : ¬ linearBoundaryText <+: c :: cs) : Passes (c :: cs) cs
  | named {name rest : List Char} (closed : '>' ∉ name) :
      Passes ('\\' :: 'k' :: '<' :: (name ++ '>' :: rest)) rest
  | escape {cs rest : List Char} (other : ¬ ['k', '<'] <+: cs) (escaped : AfterEscape cs rest) :
      Passes ('\\' :: cs) rest
  | charClass {cs rest : List Char} (bracketed : AfterClass cs rest) : Passes ('[' :: cs) rest

/-- The reader of the text comes to the place. -/
inductive Outside (text : List Char) : List Char → Prop
  | start : Outside text text
  | next {place rest : List Char} (here : Outside text place) (passes : Passes place rest) :
      Outside text rest

/-- How the groups open that are no plain capturing ones. -/
def groupMarks : List String := ["(?:", "(?=", "(?!", "(?<=", "(?<!", "(?P<"]

/-- Flags, atomic groups, and the anchors and escapes that only a matcher has. -/
def engineMarks : List String :=
  ["(?i", "(?m", "(?s", "(?x", "(?u", "(?U", "(?R", "(?-", "(?>",
    "\\A", "\\z", "\\Z", "\\<", "\\>", "\\G", "\\K"]

/-- What stands behind a backslash outside of a class. -/
inductive EscapeForm : List Char → Prop
  | mark {c : Char} {rest : List Char} (isMeta : isMeta c = true) : EscapeForm (c :: rest)
  | number (c : Char) (rest : List Char) :
      EscapeForm ('x' :: '{' :: (upperHex c.toNat ++ '}' :: rest))
  | backref {digit : Char} {rest : List Char} (isDigit : '1' ≤ digit ∧ digit ≤ '9') :
      EscapeForm (digit :: rest)
  | named {name rest : List Char} (closed : '>' ∉ name) :
      EscapeForm ('k' :: '<' :: (name ++ '>' :: rest))
  | property {letter : Char} {cs rest : List Char} (isProperty : letter = 'p' ∨ letter = 'P')
      (escaped : AfterEscape (letter :: cs) rest) : EscapeForm (letter :: cs)

inductive ClassCharText : List Char → Prop
  | plain {c : Char} (isWord : c.isAlphanum = true ∨ c = '_') : ClassCharText [c]
  | number (c : Char) : ClassCharText (hexText c.toNat)

inductive ClassMemberText : List Char → Prop
  | one {text : List Char} (isChar : ClassCharText text) : ClassMemberText text
  | range {lo hi : List Char} (first : ClassCharText lo) (last : ClassCharText hi) :
      ClassMemberText (lo ++ '-' :: hi)
  | dash : ClassMemberText ['\\', '-']
  | property {letter : Char} {cs : List Char} (isProperty : letter = 'p' ∨ letter = 'P')
      (escaped : AfterEscape (letter :: cs) []) : ClassMemberText ('\\' :: letter :: cs)

/-- The reader of a class comes to the place, given the text after the opening bracket. -/
inductive InClass (text : List Char) : List Char → Prop
  | start : InClass text text
  | char {c : Char} {rest : List Char} (here : InClass text (c :: rest))
      (plain : c ≠ ']' ∧ c ≠ '\\') : InClass text rest
  | escape {cs rest : List Char} (here : InClass text ('\\' :: cs))
      (escaped : AfterEscape cs rest) : InClass text rest

/-- Classes within classes, those with a name among them, and the operators on sets. -/
def setMarks : List String := ["[", "&&", "--", "~~"]

/-- A class ends at the closing bracket that the reader comes to, without any syntax for sets
before it. -/
structure ClassEnds (cs rest : List Char) : Prop where
  closes : AfterClass cs rest
  noSets : ∀ place, InClass cs place → ¬ BeginsWith setMarks place

/-- What stands behind an opening bracket: a class of nothing but such members. -/
inductive ClassForm : List Char → List Char → Prop
  | members (negated : Bool) {members : List (List Char)} {rest : List Char}
      (nonempty : members ≠ []) (known : ∀ m ∈ members, ClassMemberText m) :
      ClassForm ((if negated then ['^'] else []) ++ members.flatten ++ ']' :: rest) rest

/-- What the reader finds is of the vocabulary, and it does not get stuck there. -/
structure InVocabulary (place : List Char) : Prop where
  group : ['(', '?'] <+: place → BeginsWith groupMarks place
  escape : ∀ cs, place = '\\' :: cs → EscapeForm cs
  charClass : ∀ cs, place = '[' :: cs →
    dotText <+: place ∨ ∃ rest, ClassForm cs rest ∧ ClassEnds cs rest
  noEngine : ¬ BeginsWith engineMarks place
  passes : place ≠ [] → ∃ rest, Passes place rest

end JsonRules.Pattern
