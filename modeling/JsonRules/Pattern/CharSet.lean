import JsonRules.Text.Digits
import JsonRules.Unicode.Property

/-!
# Sets of characters in matcher syntax

Both matchers write a set of characters in the same way: a single character, its number in
`\x` and braces, a Unicode property, or a class of such members and of ranges. The readers
here take the text after the character that announced the set, and return what they read with
the text after it.
-/

namespace JsonRules.Pattern

open Unicode (CodeRange CodeSet)
open Text (hexDigit?)

def single (code : Nat) : CodeSet := [⟨code, code⟩]

/-- The code point after one, where no surrogate counts. -/
def codeAfter (code : Nat) : Nat := if code = 0xD7FF then 0xE000 else code + 1

def codeBefore (code : Nat) : Nat := if code = 0xE000 then 0xD7FF else code - 1

/-- The range between two ranges of a normal set, from the code point after the one to the code
point before the other. Where nothing but the surrogates parts the two, these are each other's
neighbours in the wrong order, and both are taken. -/
def gap (r next : CodeRange) : CodeRange :=
  let lo := codeAfter r.hi
  let hi := codeBefore next.lo
  ⟨min lo hi, max lo hi⟩

def gapsAfter (r : CodeRange) : CodeSet → CodeSet
  | [] => if r.hi < Unicode.maxCode then [⟨codeAfter r.hi, Unicode.maxCode⟩] else []
  | next :: rest => gap r next :: gapsAfter next rest

/-- The negation of a normal set: all gaps between its ranges. -/
def negate : CodeSet → CodeSet
  | [] => [⟨0, Unicode.maxCode⟩]
  | r :: rest => (if r.lo = 0 then [] else [⟨0, codeBefore r.lo⟩]) ++ gapsAfter r rest

/-- The text before a character, and the text after it. -/
def before? (stop : Char) : List Char → Option (List Char × List Char)
  | [] => none
  | c :: cs => if c = stop then some ([], cs) else (before? stop cs).map fun r => (c :: r.1, r.2)

def hexNumber? (digits : List Char) : Option Nat :=
  if digits.isEmpty then none
  else digits.foldlM (fun n c => (hexDigit? c).map fun d => n * 16 + d) 0

/-- A code point by its number, after the `\x`. -/
def numberedCode? : List Char → Option (Nat × List Char)
  | '{' :: cs => do
    let (digits, rest) ← before? '}' cs
    let code ← hexNumber? digits
    some (code, rest)
  | _ => none

def splitAt? (mark : List Char) : List Char → Option (List Char × List Char)
  | [] => none
  | c :: cs =>
    if mark.isPrefixOf (c :: cs) then some ([], (c :: cs).drop mark.length)
    else (splitAt? mark cs).map fun r => (c :: r.1, r.2)

/-- The set of a property's text: a name, or a property and its value with `=`, `:` or `!=`
between them. -/
def propertySet? (text : List Char) : Option CodeSet :=
  let valued (r : List Char × List Char) :=
    Unicode.valuedSet? (String.ofList r.1) (String.ofList r.2)
  match splitAt? ['!', '='] text with
  | some r => (valued r).map negate
  | none =>
    match (splitAt? [':'] text).or (splitAt? ['='] text) with
    | some r => valued r
    | none => Unicode.namedSet? (String.ofList text)

/-- A property after the `\p`, or after the `\P` if `negated`. -/
def property? (negated : Bool) (cs : List Char) : Option (CodeSet × List Char) := do
  let (name, rest) ← match cs with
    | [] => none
    | '{' :: cs => before? '}' cs
    | c :: cs => some ([c], cs)
  let codes ← propertySet? name
  some (if negated then negate codes else codes, rest)

def classCode? : List Char → Option (Nat × List Char)
  | '\\' :: 'x' :: cs => numberedCode? cs
  | '\\' :: '-' :: cs => some (0x2D, cs)
  | '\\' :: 'n' :: cs => some (0x0A, cs)
  | '\\' :: 'r' :: cs => some (0x0D, cs)
  | c :: cs => if c.isAlphanum || c = '_' then some (c.toNat, cs) else none
  | [] => none

/-- A member of a class: a property, a code point, or a range between two of them. -/
def classMember? (cs : List Char) : Option (CodeSet × List Char) :=
  match cs with
  | '\\' :: 'p' :: rest => property? false rest
  | '\\' :: 'P' :: rest => property? true rest
  | _ => do
    let (lo, rest) ← classCode? cs
    match rest with
    | '-' :: more => do
      let (hi, rest) ← classCode? more
      if hi < lo then none else some ([⟨lo, hi⟩], rest)
    | _ => some ([⟨lo, lo⟩], rest)

/-- The members of a class up to its closing bracket, for a text of at most `bound`
characters. -/
def classMembers? : Nat → List Char → Option (List CodeSet × List Char)
  | 0, _ => none
  | bound + 1, cs =>
    match cs with
    | ']' :: rest => some ([], rest)
    | cs => do
      let (member, rest) ← classMember? cs
      let (members, rest) ← classMembers? bound rest
      some (member :: members, rest)

/-- A class after its opening bracket, as its set and the number of its members. -/
def class? (cs : List Char) : Option ((CodeSet × Nat) × List Char) := do
  let (negated, body) := match cs with
    | '^' :: rest => (true, rest)
    | rest => (false, rest)
  let (members, rest) ← classMembers? (body.length + 1) body
  let codes := CodeSet.ofRanges members.flatten
  if members.isEmpty then none
  else some ((if negated then negate codes else codes, members.length), rest)

/-- The characters that have a meaning of their own, which a backslash takes from them. -/
def isMeta (c : Char) : Bool :=
  ['\\', '.', '+', '*', '?', '(', ')', '|', '[', ']', '{', '}', '^', '$', '#', '&', '-',
    '~'].contains c

/-- A set that is written as an escape, after the backslash. -/
def escapedSet? : List Char → Option (CodeSet × List Char)
  | 'x' :: cs => (numberedCode? cs).map fun r => (single r.1, r.2)
  | 'p' :: cs => property? false cs
  | 'P' :: cs => property? true cs
  | c :: cs => if isMeta c then some (single c.toNat, cs) else none
  | [] => none

end JsonRules.Pattern
