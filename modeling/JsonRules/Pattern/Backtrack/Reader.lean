import JsonRules.Pattern.Backtrack.Expr

/-!
# Reading expressions with lookaround

The syntax of the backtracking matcher. It differs from that of the linear one in its
repetitions: a `{` that starts none is itself, the least count may be left out, a repetition
that is followed by `+` is atomic, and none can be repeated. Lookaround, assertions and empty
groups cannot be repeated either. A backreference must name a group that is open or closed
before it.
-/

namespace JsonRules.Pattern.Backtrack

open Text (decimal)
open Unicode (CodeSet)

inductive Opening where
  | plain
  | capture (name : Option (List Char))
  | look (behind negative : Bool)
  deriving DecidableEq, Repr

inductive Lexeme where
  | set (chars : CodeSet)
  | start
  | stop
  | openGroup (opening : Opening)
  | closeGroup
  | bar
  | optional
  | star
  | plus
  /-- A counted repetition, with its text after the `{`. -/
  | counted (least : Nat) (most : Option Nat) (text : List Char)
  | backref (index : Nat)
  /-- A reference by name, number, or number of groups back. -/
  | namedBackref (name : List Char)
  deriving Repr

namespace Lexeme

/-- A count of 64 bits. -/
def count? (cs : List Char) : Option (Nat × List Char) :=
  let digits := cs.takeWhile Char.isDigit
  if digits.isEmpty ∨ 0x10000000000000000 ≤ decimal digits then none
  else some (decimal digits, cs.dropWhile Char.isDigit)

def bounds? (cs : List Char) : Option ((Nat × Option Nat) × List Char) := do
  let (least, rest) ← match cs with
    | ',' :: _ => some (0, cs)
    | _ => count? cs
  match rest with
  | '}' :: rest => some ((least, some least), rest)
  | ',' :: rest =>
    let (most, rest) := match count? rest with
      | some (n, rest) => (some n, rest)
      | none => (none, rest)
    match rest with
    | '}' :: rest => some ((least, most), rest)
    | _ => none
  | _ => none

def isNameChar (c : Char) : Bool := c = '_' || Unicode.isAlphanumeric c

def isName (cs : List Char) : Bool := !cs.isEmpty && cs.all isNameChar

/-- What a group opens with, after its `(`. -/
def opening? (cs : List Char) : Option (Opening × List Char) :=
  match cs with
  | '?' :: ':' :: rest => some (.plain, rest)
  | '?' :: '=' :: rest => some (.look false false, rest)
  | '?' :: '!' :: rest => some (.look false true, rest)
  | '?' :: '<' :: '=' :: rest => some (.look true false, rest)
  | '?' :: '<' :: '!' :: rest => some (.look true true, rest)
  | '?' :: 'P' :: '<' :: rest => do
    let (name, rest) ← before? '>' rest
    if isName name then some (.capture (some name), rest) else none
  | '?' :: _ => none
  | rest => some (.capture none, rest)

def escape? (cs : List Char) : Option (Lexeme × List Char) :=
  match cs with
  | 'k' :: '<' :: rest => (before? '>' rest).map fun r => (namedBackref r.1, r.2)
  | c :: _ =>
    if c.isDigit then (count? cs).map fun r => (backref r.1, r.2)
    else (escapedSet? cs).map fun r => (set r.1, r.2)
  | [] => none

/-- The lexeme that starts with `c`, and the text after it. -/
def next? (c : Char) (cs : List Char) : Option (Lexeme × List Char) :=
  match c with
  | '\\' => escape? cs
  | '[' => (class? cs).map fun r => (set r.1.1, r.2)
  | '(' => (opening? cs).map fun r => (openGroup r.1, r.2)
  | ')' => some (closeGroup, cs)
  | '|' => some (bar, cs)
  | '^' => some (start, cs)
  | '$' => some (stop, cs)
  | '*' => some (star, cs)
  | '+' => some (plus, cs)
  | '?' => some (optional, cs)
  | '{' =>
    match bounds? cs with
    | some ((least, most), rest) =>
      some (counted least most (cs.take (cs.length - rest.length)), rest)
    | none => some (set (single c.toNat), cs)
  | c => some (set (single c.toNat), cs)

/-- The lexemes of a text of at most `bound` characters. -/
def scan : Nat → List Char → Option (List Lexeme)
  | _, [] => some []
  | 0, _ => none
  | bound + 1, c :: cs => do
    let (lexeme, rest) ← next? c cs
    let lexemes ← scan bound rest
    some (lexeme :: lexemes)

end Lexeme

/-- What has been read since the last complete part. -/
inductive Pending where
  | none
  /-- A part that can still be repeated. -/
  | part (e : Expr)
  /-- A repetition that can still be made reluctant, unless it is `settled`, or atomic. -/
  | repeated (least : Nat) (most : Option Nat) (greedy settled : Bool) (body : Expr)

/-- What a level of the expression lies in. -/
inductive Enclosing where
  | whole
  | plain
  | capture (index : Nat)
  | look (behind negative : Bool)
  deriving DecidableEq, Repr

/-- What has been read of a group, last part first. -/
structure Level where
  enclosing : Enclosing
  branches : List Expr
  parts : List Expr
  pending : Pending

namespace Level

def start (enclosing : Enclosing) : Level := ⟨enclosing, [], [], .none⟩

/-- The parts that are complete once nothing follows; those that are empty are left out. -/
def settled (l : Level) : List Expr :=
  match l.pending with
  | .none => l.parts
  | .part .empty => l.parts
  | .part e => e :: l.parts
  | .repeated least most greedy _ body => .rep least most greedy body :: l.parts

def add (l : Level) (e : Expr) : Level := { l with parts := l.settled, pending := .part e }

def branch (l : Level) : Expr :=
  match l.settled with
  | [] => .empty
  | [e] => e
  | es => .concat es.reverse

def content (l : Level) : Expr :=
  if l.branches.isEmpty then l.branch else .alt (l.branch :: l.branches).reverse

end Level

def Expr.isRepeatable : Expr → Bool
  | .look _ _ _ => false
  | .empty => false
  | .start => false
  | .stop => false
  | _ => true

structure ParseState where
  outer : List Level
  inner : Level
  /-- How many groups have been opened. -/
  opened : Nat
  /-- The named groups, last one first. -/
  names : List (List Char × Nat)
  /-- A group has been referred to by its number. -/
  numbered : Bool

namespace ParseState

def depthLimit : Nat := 64

def start : ParseState := ⟨[], .start .whole, 0, [], false⟩

def addPart (s : ParseState) (e : Expr) : ParseState := { s with inner := s.inner.add e }

def addText (s : ParseState) (cs : List Char) : ParseState :=
  cs.foldl (fun s c => s.addPart (.set (single c.toNat))) s

/-- Repeats the part that has just been read, if it can be. -/
def repeat? (s : ParseState) (least : Nat) (most : Option Nat) : Option ParseState :=
  match s.inner.pending with
  | .part e =>
    if e.isRepeatable then
      some { s with inner := { s.inner with pending := .repeated least most true false e } }
    else none
  | _ => none

/-- The group that a name, a number, or a number of groups back stands for. -/
def named? (s : ParseState) (name : List Char) : Option Nat :=
  if Lexeme.isName name then
    match s.names.lookup name with
    | some i => some i
    | none => if name.all Char.isDigit then some (decimal name) else none
  else
    match name with
    | '-' :: digits =>
      let n := decimal digits
      if digits.isEmpty ∨ !digits.all Char.isDigit ∨ n = 0 ∨ s.opened < n then none
      else some (s.opened + 1 - n)
    | _ => none

def reference? (s : ParseState) (index : Nat) : Option ParseState :=
  if index ≤ s.opened then some (s.addPart (.backref index)) else none

def open? (s : ParseState) (opening : Opening) : Option ParseState :=
  if depthLimit ≤ s.outer.length + 1 then none
  else
    let outer := s.inner :: s.outer
    match opening with
    | .plain => some { s with outer := outer, inner := .start .plain }
    | .look behind negative =>
      some { s with outer := outer, inner := .start (.look behind negative) }
    | .capture name =>
      let index := s.opened + 1
      let names := match name with
        | some n => (n, index) :: s.names
        | none => s.names
      some ⟨outer, .start (.capture index), index, names, s.numbered⟩

/-- The content of the innermost level. Where there are named groups, numbered references are
refused in a level without alternatives. -/
def content? (s : ParseState) : Option Expr :=
  if s.inner.branches.isEmpty ∧ s.numbered ∧ !s.names.isEmpty then none else some s.inner.content

def close? (s : ParseState) : Option ParseState := do
  let content ← s.content?
  match s.outer with
  | [] => none
  | l :: outer =>
    let part ← match s.inner.enclosing with
      | .whole => none
      | .plain => some content
      | .capture index => some (.group index content)
      | .look behind negative => some (.look behind negative content)
    some { s with outer := outer, inner := l.add part }

/-- Reads one lexeme of a text of the given size in bytes. -/
def step? (size : Nat) (s : ParseState) : Lexeme → Option ParseState
  | .set chars => some (s.addPart (.set chars))
  | .start => some (s.addPart .start)
  | .stop => some (s.addPart .stop)
  | .openGroup opening => s.open? opening
  | .closeGroup => s.close?
  | .bar =>
    some { s with inner := ⟨s.inner.enclosing, s.inner.branch :: s.inner.branches, [], .none⟩ }
  | .optional =>
    match s.inner.pending with
    | .repeated least most true false body =>
      some { s with inner := { s.inner with pending := .repeated least most false true body } }
    | _ => s.repeat? 0 (some 1)
  | .star => s.repeat? 0 none
  | .plus =>
    match s.inner.pending with
    | .repeated least most greedy _ body =>
      let parts := .atomic (.rep least most greedy body) :: s.inner.parts
      some { s with inner := { s.inner with parts := parts, pending := .none } }
    | _ => s.repeat? 1 none
  | .counted least most text =>
    match s.inner.pending with
    | .part _ => s.repeat? least most
    | _ => some (s.addText ('{' :: text))
  | .backref index =>
    if index < size / 2 then { s with numbered := true }.reference? index else none
  | .namedBackref name => do
    let index ← s.named? name
    s.reference? index

end ParseState

def Expr.ofText? (text : List Char) : Option Expr := do
  let lexemes ← Lexeme.scan text.length text
  let size := (String.ofList text).utf8ByteSize
  let s ← lexemes.foldlM (ParseState.step? size) ParseState.start
  if s.outer.isEmpty then s.content? else none

end JsonRules.Pattern.Backtrack
