import JsonRules.Pattern.Linear.Regex
import JsonRules.Pattern.Token

/-!
# Patterns and their meaning

The patterns of ECMA 262 that neither look around nor refer back: how they are written and what they
match. `Source` has one type for each level of the grammar, so that only what stands at the right
place can be built. `Source.Delimited` excludes the parts that would be read together with what
follows them, such as the two halves of a surrogate pair.
-/

namespace JsonRules.Pattern

open Linear (Assertion Times)
open Text (hexDigit? decimal)
open Unicode (maxCode)

abbrev HexDigit := { c : Char // (hexDigit? c).isSome = true }

/-- The number that hexadecimal digits spell after those of another number. -/
def hexFrom (n : Nat) : List HexDigit → Nat
  | [] => n
  | d :: digits => hexFrom (n * 16 + (hexDigit? d.1).getD 0) digits

def hexValue (digits : List HexDigit) : Nat := hexFrom 0 digits

def hexDigits (digits : List HexDigit) : List Char := digits.map Subtype.val

def controlLetters : List (Char × Nat) :=
  [('t', 0x09), ('n', 0x0A), ('v', 0x0B), ('f', 0x0C), ('r', 0x0D)]

inductive CodeEscape where
  | control (c : Char) (code : Nat) (known : (c, code) ∈ controlLetters)
  | null
  /-- The control character of a letter. -/
  | letter (c : Char) (isAlpha : c.isAlpha = true)
  | byte (digits : List HexDigit) (two : digits.length = 2)
  | unit (digits : List HexDigit) (four : digits.length = 4)
  /-- A surrogate pair, which is one code point. -/
  | pair (high low : List HexDigit) (fourHigh : high.length = 4) (fourLow : low.length = 4)
      (isHigh : isHighSurrogate (hexValue high) = true)
      (isLow : isLowSurrogate (hexValue low) = true)
  /-- Any number of zeros may be in front, as long as the digits can be counted. -/
  | braced (digits : List HexDigit) (nonempty : digits ≠ [])
      (counted : digits.length < Word.countLimit) (bounded : hexValue digits ≤ maxCode)
  /-- Any other character stands for itself. -/
  | identity (c : Char) (other : c.isAlphanum = false)

namespace CodeEscape

/-- How the escape is written after its backslash. -/
def text : CodeEscape → List Char
  | control c _ _ => [c]
  | null => ['0']
  | letter c _ => ['c', c]
  | byte digits _ => 'x' :: hexDigits digits
  | unit digits _ => 'u' :: hexDigits digits
  | pair high low _ _ _ _ => 'u' :: hexDigits high ++ '\\' :: 'u' :: hexDigits low
  | braced digits _ _ _ => 'u' :: '{' :: hexDigits digits ++ ['}']
  | identity c _ => [c]

def code : CodeEscape → Nat
  | control _ code _ => code
  | null => 0
  | letter c _ => c.toNat % 32
  | byte digits _ => hexValue digits
  | unit digits _ => hexValue digits
  | pair high low _ _ _ _ => 0x10000 + (hexValue high - 0xD800) * 0x400 + (hexValue low - 0xDC00)
  | braced digits _ _ _ => hexValue digits
  | identity c _ => c.toNat

/-- The escape ends where the given text begins: no digit goes on with a null, and no low surrogate
with a high one. -/
def Ends (rest : List Char) : CodeEscape → Prop
  | null => ∀ c, rest.head? = some c → c.isDigit = false
  | unit digits _ => isHighSurrogate (hexValue digits) = true →
      ∀ low more, rest = '\\' :: 'u' :: (hexDigits low ++ more) → low.length = 4 →
        isLowSurrogate (hexValue low) = false
  | _ => True

end CodeEscape

def NamedSet.letter : NamedSet → Bool → Char
  | digit, false => 'd'
  | digit, true => 'D'
  | word, false => 'w'
  | word, true => 'W'
  | space, false => 's'
  | space, true => 'S'

inductive ClassCode where
  | raw (c : Char) (plain : c ≠ '\\' ∧ c ≠ ']' ∧ c ≠ '-')
  | escape (e : CodeEscape)
  | backspace

namespace ClassCode

def text : ClassCode → List Char
  | raw c _ => [c]
  | escape e => '\\' :: e.text
  | backspace => ['\\', 'b']

def code : ClassCode → Nat
  | raw c _ => c.toNat
  | escape e => e.code
  | backspace => 0x08

def Ends (rest : List Char) : ClassCode → Prop
  | escape e => e.Ends rest
  | _ => True

end ClassCode

inductive ClassMember where
  | one (c : ClassCode)
  | range (lo hi : ClassCode) (le : lo.code ≤ hi.code)
  | set (named : NamedSet) (complement : Bool)

namespace ClassMember

def text : ClassMember → List Char
  | one c => c.text
  | range lo hi _ => lo.text ++ '-' :: hi.text
  | set named complement => ['\\', named.letter complement]

def names (x : Char) : ClassMember → Bool
  | one c => x.toNat = c.code
  | range lo hi _ => lo.code ≤ x.toNat ∧ x.toNat ≤ hi.code
  | set named complement => named.codes.has x != complement

def Ends (rest : List Char) : ClassMember → Prop
  | one c => c.Ends rest
  | range _ hi _ => hi.Ends rest
  | set _ _ => True

end ClassMember

/-- Every member of a class ends where the next one begins. -/
def MembersDelimited : List ClassMember → List Char → Prop
  | [], _ => True
  | m :: ms, rest => m.Ends (ms.flatMap ClassMember.text ++ rest) ∧ MembersDelimited ms rest

/-- A class. Only as its first or its last member is a `-` itself. -/
structure CharClass where
  negated : Bool
  firstDash : Bool
  members : List ClassMember
  lastDash : Bool
  /-- A `^` at the beginning negates the class. -/
  caret : negated = true ∨ firstDash = true ∨ members.head?.all fun m => m.text.head? ≠ some '^'

namespace CharClass

def closing (c : CharClass) : List Char := (if c.lastDash then ['-'] else []) ++ [']']

/-- How the class is written after its opening bracket. -/
def text (c : CharClass) : List Char :=
  (if c.negated then ['^'] else []) ++ (if c.firstDash then ['-'] else []) ++
    c.members.flatMap ClassMember.text ++ c.closing

def names (c : CharClass) (x : Char) : Bool :=
  ((c.firstDash || c.lastDash) && x == '-') || c.members.any (ClassMember.names x)

def admits (c : CharClass) (x : Char) : Bool := c.names x != c.negated

def Delimited (c : CharClass) (rest : List Char) : Prop :=
  MembersDelimited c.members (c.closing ++ rest)

/-- The class is negated and names both neighbours of the surrogates. -/
def Straddles (c : CharClass) : Prop :=
  c.negated = true ∧ c.names '\uD7FF' = true ∧ c.names '\uE000' = true

end CharClass

def reserved : List Char := ['\\', '^', '$', '.', '*', '+', '?', '(', ')', '[', ']', '{', '}', '|']

inductive CharSource where
  | raw (c : Char) (plain : c ∉ reserved)
  | escape (e : CodeEscape)
  | dot
  | set (named : NamedSet) (complement : Bool)
  | cls (c : CharClass)

namespace CharSource

def text : CharSource → List Char
  | raw c _ => [c]
  | escape e => '\\' :: e.text
  | dot => ['.']
  | set named complement => ['\\', named.letter complement]
  | cls c => '[' :: c.text

def admits (x : Char) : CharSource → Bool
  | raw c _ => x == c
  | escape e => x.toNat = e.code
  | dot => !(['\n', '\r', '\u2028', '\u2029'].contains x)
  | set named complement => named.codes.has x != complement
  | cls c => c.admits x

def Delimited (rest : List Char) : CharSource → Prop
  | escape e => e.Ends rest
  | cls c => c.Delimited rest
  | _ => True

def Straddles : CharSource → Prop
  | cls c => c.Straddles
  | _ => False

end CharSource

abbrev Digits := { ds : List Char // ds ≠ [] ∧ ∀ c ∈ ds, c.isDigit = true }

def Digits.value (ds : Digits) : Nat := decimal ds.1

inductive Quantifier where
  | star
  | plus
  | optional
  | exactly (n : Digits)
  | atLeast (n : Digits)
  | between (n m : Digits) (le : n.value ≤ m.value)

namespace Quantifier

def text : Quantifier → List Char
  | star => ['*']
  | plus => ['+']
  | optional => ['?']
  | exactly n => '{' :: n.1 ++ ['}']
  | atLeast n => '{' :: n.1 ++ [',', '}']
  | between n m _ => '{' :: n.1 ++ ',' :: m.1 ++ ['}']

def least : Quantifier → Nat
  | star | optional => 0
  | plus => 1
  | exactly n | atLeast n | between n _ _ => n.value

def most : Quantifier → Option Nat
  | star | plus | atLeast _ => none
  | optional => some 1
  | exactly n => some n.value
  | between _ m _ => some m.value

end Quantifier

structure GroupName where
  first : Char
  rest : List Char
  starts : first.isAlpha = true ∨ first = '_' ∨ first = '$'
  continues : ∀ c ∈ rest, c.isAlphanum = true ∨ c = '_' ∨ c = '$'

def GroupName.chars (n : GroupName) : List Char := n.first :: n.rest

inductive GroupKind where
  | capturing
  | plain
  | named (name : GroupName)

namespace GroupKind

def text : GroupKind → List Char
  | capturing => ['(']
  | plain => ['(', '?', ':']
  | named name => '(' :: '?' :: '<' :: name.chars ++ ['>']

def names : GroupKind → List (List Char)
  | named name => [name.chars]
  | _ => []

end GroupKind

def assertionText : Assertion → List Char
  | .start => ['^']
  | .stop => ['$']
  | .wordBoundary => ['\\', 'b']

inductive Level where
  /-- What can be repeated. -/
  | atom
  | term
  /-- Terms one after the other. -/
  | alternative
  /-- Alternatives with a bar between any two. -/
  | disjunction

inductive Source : Level → Type where
  | char (c : CharSource) : Source .atom
  | group (kind : GroupKind) (body : Source .disjunction) : Source .atom
  | assertion (a : Assertion) : Source .term
  | once (a : Source .atom) : Source .term
  | repeated (a : Source .atom) (q : Quantifier) (reluctant : Bool) : Source .term
  | empty : Source .alternative
  | seq (t : Source .term) (rest : Source .alternative) : Source .alternative
  | last (a : Source .alternative) : Source .disjunction
  | alt (a : Source .alternative) (rest : Source .disjunction) : Source .disjunction

namespace Source

def text : {l : Level} → Source l → List Char
  | _, char c => c.text
  | _, group kind body => kind.text ++ body.text ++ [')']
  | _, assertion a => assertionText a
  | _, once a => a.text
  | _, repeated a q reluctant => a.text ++ q.text ++ if reluctant then ['?'] else []
  | _, empty => []
  | _, seq t rest => t.text ++ rest.text
  | _, last a => a.text
  | _, alt a rest => a.text ++ '|' :: rest.text

/-- The names of the groups, in the order in which they open. -/
def names : {l : Level} → Source l → List (List Char)
  | _, char _ => []
  | _, group kind body => kind.names ++ body.names
  | _, assertion _ => []
  | _, once a => a.names
  | _, repeated a _ _ => a.names
  | _, empty => []
  | _, seq t rest => t.names ++ rest.names
  | _, last a => a.names
  | _, alt a rest => a.names ++ rest.names

/-- Every part of the pattern ends where the next one begins, and the last one where the given text
does. -/
def Delimited : {l : Level} → Source l → List Char → Prop
  | _, char c, rest => c.Delimited rest
  | _, group _ body, rest => body.Delimited (')' :: rest)
  | _, assertion _, _ => True
  | _, once a, rest => a.Delimited rest
  | _, repeated a q reluctant, rest =>
    a.Delimited (q.text ++ (if reluctant then ['?'] else []) ++ rest)
  | _, empty, _ => True
  | _, seq t more, rest => t.Delimited (more.text ++ rest) ∧ more.Delimited rest
  | _, last a, rest => a.Delimited rest
  | _, alt a more, rest => a.Delimited ('|' :: more.text ++ rest) ∧ more.Delimited rest

/-- Some negated class of the pattern names both neighbours of the surrogates. -/
def Straddles : {l : Level} → Source l → Prop
  | _, char c => c.Straddles
  | _, group _ body => body.Straddles
  | _, assertion _ => False
  | _, once a => a.Straddles
  | _, repeated a _ _ => a.Straddles
  | _, empty => False
  | _, seq t rest => t.Straddles ∨ rest.Straddles
  | _, last a => a.Straddles
  | _, alt a rest => a.Straddles ∨ rest.Straddles

/-- The pattern matches the text from position `i` to position `j`, where `takes` says which
characters its parts take. -/
def Matches (takes : CharSource → Char → Prop) (text : List Char) :
    {l : Level} → Source l → Nat → Nat → Prop
  | _, char c, i, j => j = i + 1 ∧ ∃ x, text[i]? = some x ∧ takes c x
  | _, group _ body, i, j => body.Matches takes text i j
  | _, assertion a, i, j => i = j ∧ a.holds text i = true
  | _, once a, i, j => a.Matches takes text i j
  | _, repeated a q _, i, j =>
    ∃ n, q.least ≤ n ∧ (∀ m, q.most = some m → n ≤ m) ∧ Times (a.Matches takes text) n i j
  | _, empty, i, j => i = j
  | _, seq t rest, i, k => ∃ j, t.Matches takes text i j ∧ rest.Matches takes text j k
  | _, last a, i, j => a.Matches takes text i j
  | _, alt a rest, i, j => a.Matches takes text i j ∨ rest.Matches takes text i j

/-- The pattern matches some part of the text, where `takes` says which characters its parts
take. -/
def OccursBy (takes : CharSource → Char → Prop) (s : Source .disjunction) (text : List Char) :
    Prop :=
  ∃ i j, i ≤ text.length ∧ s.Matches takes text i j

def Occurs (s : Source .disjunction) (text : List Char) : Prop :=
  s.OccursBy (fun c x => c.admits x = true) text

end Source

end JsonRules.Pattern
