import JsonRules.Pattern.Linear.Regex

/-!
# Reading regular expressions

The syntax of the linear matcher. `Lexeme.scan` splits a text into lexemes, and `Regex.parse?`
builds the expression from them with a stack of the groups that are open. A repetition belongs
to what stands right before it and can itself be repeated; it is refused where nothing does.
A `{` must start a repetition. Group names are different from one another, and no more than
`nestLimit` groups, repetitions, sequences, alternatives and classes lie in one another.
-/

namespace JsonRules.Pattern.Linear

open Text (decimal)
open Unicode (CodeSet)

inductive Lexeme where
  /-- A set of characters, and how many levels of classes it is written in. -/
  | set (chars : CodeSet) (levels : Nat)
  | assert (assertion : Assertion) (levels : Nat)
  | rep (least : Nat) (most : Option Nat) (greedy : Bool)
  /-- A group opens that has a name, or none. -/
  | openGroup (name : Option (List Char))
  | closeGroup
  | bar
  deriving Repr

namespace Lexeme

/-- A repetition count with blanks around it. -/
def count? (cs : List Char) : Option (Nat × List Char) :=
  let cs := cs.dropWhile Unicode.isWhiteSpace
  let digits := cs.takeWhile Char.isDigit
  let n := decimal digits
  if digits.isEmpty ∨ 0x100000000 ≤ n then none
  else some (n, (cs.dropWhile Char.isDigit).dropWhile Unicode.isWhiteSpace)

def bounds? (cs : List Char) : Option ((Nat × Option Nat) × List Char) := do
  let (least, rest) ← count? cs
  match rest with
  | '}' :: rest => some ((least, some least), rest)
  | ',' :: '}' :: rest => some ((least, none), rest)
  | ',' :: rest =>
    let (most, rest) ← count? rest
    match rest with
    | '}' :: rest => if most < least then none else some ((least, some most), rest)
    | _ => none
  | _ => none

/-- A repetition with the given bounds, which a `?` makes reluctant. -/
def repetition (least : Nat) (most : Option Nat) : List Char → Lexeme × List Char
  | '?' :: rest => (rep least most false, rest)
  | rest => (rep least most true, rest)

def isNameChar (first : Bool) (c : Char) : Bool :=
  if first then c = '_' || Unicode.isAlphabetic c
  else c = '_' || c = '.' || c = '[' || c = ']' || Unicode.isAlphanumeric c

def isName : List Char → Bool
  | [] => false
  | c :: cs => isNameChar true c && cs.all (isNameChar false)

def group? (cs : List Char) : Option (Lexeme × List Char) :=
  match cs with
  | '?' :: ':' :: rest => some (openGroup none, rest)
  | '?' :: 'P' :: '<' :: rest => do
    let (name, rest) ← before? '>' rest
    if isName name then some (openGroup (some name), rest) else none
  | '?' :: '-' :: 'u' :: ':' :: '\\' :: 'b' :: ')' :: rest => some (assert .wordBoundary 1, rest)
  | '?' :: _ => none
  | rest => some (openGroup none, rest)

def next? (c : Char) (cs : List Char) : Option (Lexeme × List Char) :=
  match c with
  | '\\' => (escapedSet? cs).map fun r => (set r.1 0, r.2)
  | '[' => (class? cs).map fun r => (set r.1.1 (if r.1.2 = 1 then 1 else 2), r.2)
  | '(' => group? cs
  | ')' => some (closeGroup, cs)
  | '|' => some (bar, cs)
  | '^' => some (assert .start 0, cs)
  | '$' => some (assert .stop 0, cs)
  | '*' => some (repetition 0 none cs)
  | '+' => some (repetition 1 none cs)
  | '?' => some (repetition 0 (some 1) cs)
  | '{' => (bounds? cs).map fun r => repetition r.1.1 r.1.2 r.2
  | c => some (set (single c.toNat) 0, cs)

def scan : Nat → List Char → Option (List Lexeme)
  | _, [] => some []
  | 0, _ => none
  | bound + 1, c :: cs => do
    let (lexeme, rest) ← next? c cs
    let lexemes ← scan bound rest
    some (lexeme :: lexemes)

end Lexeme

/-- An expression with the levels that lie in one another in it. -/
structure Part where
  regex : Regex
  levels : Nat
  deriving Repr

/-- What has been read of an open group, last part first: the alternatives that are complete,
and the parts of the one that is not. -/
structure OpenGroup where
  branches : List Part
  parts : List Part
  deriving Repr

namespace OpenGroup

def start : OpenGroup := ⟨[], []⟩

/-- Joins parts, last one first; two or more make a level of their own. -/
def join (combine : Regex → Regex → Regex) : List Part → Part
  | [] => ⟨.empty, 0⟩
  | [p] => p
  | last :: rest =>
    ⟨rest.foldl (fun r p => combine p.regex r) last.regex,
      1 + (last :: rest).foldl (fun n p => max n p.levels) 0⟩

def branch (g : OpenGroup) : Part := join .seq g.parts

def content (g : OpenGroup) : Part := join .alt (g.branch :: g.branches)

def add (g : OpenGroup) (p : Part) : OpenGroup := { g with parts := p :: g.parts }

end OpenGroup

/-- The groups that are open around the innermost one, and the names that are taken. -/
structure ParseState where
  outer : List OpenGroup
  inner : OpenGroup
  names : List (List Char)
  deriving Repr

namespace ParseState

def start : ParseState := ⟨[], .start, []⟩

def step? (s : ParseState) : Lexeme → Option ParseState
  | .set chars levels => some { s with inner := s.inner.add ⟨.set chars, levels⟩ }
  | .assert assertion levels => some { s with inner := s.inner.add ⟨.assert assertion, levels⟩ }
  | .rep least most greedy =>
    match s.inner.parts with
    | [] => none
    | p :: rest =>
      let repeated : Part := ⟨.rep least most greedy p.regex, p.levels + 1⟩
      some { s with inner := { s.inner with parts := repeated :: rest } }
  | .openGroup none => some { s with outer := s.inner :: s.outer, inner := .start }
  | .openGroup (some name) =>
    if s.names.contains name then none
    else some ⟨s.inner :: s.outer, .start, name :: s.names⟩
  | .closeGroup =>
    match s.outer with
    | [] => none
    | g :: outer =>
      let content := s.inner.content
      some { s with outer := outer, inner := g.add ⟨content.regex, content.levels + 1⟩ }
  | .bar => some { s with inner := ⟨s.inner.branch :: s.inner.branches, []⟩ }

end ParseState

/-- How many levels may lie in one another. -/
def nestLimit : Nat := 250

def Regex.parse? (lexemes : List Lexeme) : Option Regex := do
  let s ← lexemes.foldlM ParseState.step? ParseState.start
  if s.outer.isEmpty ∧ s.inner.content.levels ≤ nestLimit then some s.inner.content.regex else none

def Regex.ofText? (text : List Char) : Option Regex := do
  let lexemes ← Lexeme.scan text.length text
  Regex.parse? lexemes

end JsonRules.Pattern.Linear
