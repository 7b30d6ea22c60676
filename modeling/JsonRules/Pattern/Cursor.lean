import JsonRules.Number.Word
import JsonRules.Pattern.Rendering

/-!
# Reading a pattern by position

The text of a pattern stays as it is, and a position in it moves: forward over what is read, back by
one over the letter of an escape that stands for its backslash, and back to where it was when a
second escape is not the other half of a surrogate pair. Every loop turns as often as it is allowed
to, every move has to end in the text or at its end, and every number has to fit in 32 bits, of
which one is the sign where digits are counted. Whether this is so is not taken for granted here.
-/

namespace JsonRules.Pattern

open Unicode (maxCode)
open Text (hexDigit?)

/-- Why reading stops before the end of the text. -/
inductive Stop where
  /-- There is an error in the pattern. -/
  | refused (error : PatternError)
  /-- A number does not fit, or falls below zero. -/
  | overflow
  /-- A position is outside of the text. -/
  | outside
  /-- A loop turns more often than it is allowed to. -/
  | endless
  deriving DecidableEq, Repr

def joinSurrogates? (high low : Nat) : Option Nat := do
  let upper ← Word.mul? (← Word.sub? high 0xD800) 0x400
  Word.add? (← Word.add? 0x10000 upper) (← Word.sub? low 0xDC00)

namespace Cursor

/-- A number that has to fit. -/
def fitting (n? : Option Nat) : Except Stop Nat :=
  match n? with
  | some n => .ok n
  | none => .error .overflow

/-- Repeats what may find an item, until it finds none. -/
def loop {α : Type} (body : Nat → Except Stop (Option α × Nat)) :
    Nat → Nat → Except Stop (List α × Nat)
  | 0, _ => .error .endless
  | turns + 1, pos => do
    let (item?, pos) ← body pos
    match item? with
    | none => .ok ([], pos)
    | some item => (loop body turns pos).map fun r => (item :: r.1, r.2)

section Reading

variable (chars : List Char)

/-- How often a loop may turn: once for each character and for the end of the text. -/
def turns : Nat := chars.length + 1

/-- Moves to a position, which has to be in the text or at its end. -/
def moveTo (pos : Nat) : Except Stop Nat :=
  if pos ≤ chars.length then .ok pos else .error .outside

def back : Nat → Except Stop Nat
  | 0 => .error .overflow
  | pos + 1 => moveTo chars pos

def next (pos : Nat) : Except Stop (Option Char × Nat) :=
  match chars[pos]? with
  | some c => (moveTo chars (pos + 1)).map fun pos => (some c, pos)
  | none => .ok (none, pos)

def eat (expected : Char) (pos : Nat) : Except Stop (Bool × Nat) :=
  if chars[pos]? = some expected then (moveTo chars (pos + 1)).map fun pos => (true, pos)
  else .ok (false, pos)

def hex : Nat → Nat → Nat → Except Stop (Option Nat × Nat)
  | 0, code, pos => .ok (some code, pos)
  | n + 1, code, pos => do
    let (c?, pos) ← next chars pos
    match c?.bind hexDigit? with
    | none => .ok (none, pos)
    | some d =>
      let scaled ← fitting (Word.mul? code 16)
      hex n (← fitting (Word.add? scaled d)) pos

/-- Reads hexadecimal digits up to a closing brace, and counts them. What they spell is no code point
if it does not fit; that their count does not fit is not expected. -/
def bracedHex : Nat → Nat → Nat → Nat → Except Stop ((Option Nat × Nat) × Nat)
  | 0, _, _, _ => .error .endless
  | turns + 1, code, digits, pos => do
    let (c?, pos) ← next chars pos
    match c? with
    | none => .ok ((none, digits), pos)
    | some c =>
      if c = '}' ∧ 0 < digits then .ok ((some code, digits), pos)
      else
        match (Word.mul? code 16).bind fun scaled => (hexDigit? c).bind (Word.add? scaled) with
        | none => .ok ((none, digits), pos)
        | some code => do bracedHex turns code (← fitting (Word.count? digits)) pos

/-- The code point that digits in braces spell, and the position after them. -/
def spelled : (Option Nat × Nat) × Nat → Except Stop (Nat × Nat)
  | ((code?, _), pos) =>
    match code?.filter (· ≤ maxCode) with
    | some code => .ok (code, pos)
    | none => .error (.refused (.invalidEscape 'u'))

def bracedEscape (pos : Nat) : Except Stop (Nat × Nat) :=
  bracedHex chars (turns chars) 0 0 pos >>= spelled

def unicodeEscape (pos : Nat) : Except Stop (Nat × Nat) := do
  let (braced, pos) ← eat chars '{' pos
  if braced then bracedEscape chars pos
  else
    let (high?, pos) ← hex chars 4 0 pos
    match high? with
    | none => .error (.refused (.invalidEscape 'u'))
    | some high =>
      if isHighSurrogate high ∧ chars[pos]? = some '\\' ∧ chars[pos + 1]? = some 'u' then
        let (low?, after) ← hex chars 4 0 (← moveTo chars (pos + 2))
        match low?.filter isLowSurrogate with
        | some low => (fitting (joinSurrogates? high low)).map fun code => (code, after)
        | none => (moveTo chars pos).map fun pos => (high, pos)
      else .ok (high, pos)

def codeEscape (c : Char) (pos : Nat) : Except Stop (Nat × Nat) :=
  match controlEscape? c with
  | some code => .ok (code, pos)
  | none =>
    if c = '0' ∧ (chars[pos]?.all fun d => !d.isDigit) then .ok (0, pos)
    else if c = 'c' then
      match chars[pos]?.filter Char.isAlpha with
      | some letter => (moveTo chars (pos + 1)).map fun pos => (letter.toNat % 32, pos)
      | none => (back chars pos).map fun pos => (0x5C, pos)
    else if c = 'x' then do
      let (code?, pos) ← hex chars 2 0 pos
      match code? with
      | some code => .ok (code, pos)
      | none => .error (.refused (.invalidEscape 'x'))
    else if c = 'u' then unicodeEscape chars pos
    else if c.isDigit then .error (.refused (.invalidEscape c))
    else .ok (c.toNat, pos)

def through (stop : Char) (e : PatternError) : Nat → Nat → Except Stop (List Char × Nat)
  | 0, _ => .error .endless
  | turns + 1, pos => do
    let (c?, pos) ← next chars pos
    match c? with
    | none => .error (.refused e)
    | some c =>
      if c = stop then .ok ([c], pos)
      else (through stop e turns pos).map fun r => (c :: r.1, r.2)

def propertyText (letter : Char) (pos : Nat) : Except Stop (List Char × Nat) := do
  let (c?, pos) ← next chars pos
  match c? with
  | none => .error (.refused (.invalidEscape letter))
  | some c =>
    if c = '{' then
      (through chars '}' (.invalidEscape letter) (turns chars) pos).map fun r =>
        ('\\' :: letter :: '{' :: r.1, r.2)
    else .ok (['\\', letter, c], pos)

def classEscape (pos : Nat) : Except Stop (ClassAtom × Nat) := do
  let (c?, pos) ← next chars pos
  match c? with
  | none => .error (.refused .trailingEscape)
  | some c =>
    match NamedSet.ofLetter? c with
    | some (s, negated) => .ok (.set (if negated then s.codes.complement else s.codes), pos)
    | none =>
      if c = 'b' then .ok (.code 0x08, pos)
      else if c = 'p' ∨ c = 'P' then
        (propertyText chars c pos).map fun r => (.property r.1, r.2)
      else (codeEscape chars c pos).map fun r => (.code r.1, r.2)

/-- One turn of the loop over a class: an atom, or none at the closing bracket. -/
def classAtom? (pos : Nat) : Except Stop (Option ClassAtom × Nat) := do
  let (c?, pos) ← next chars pos
  match c? with
  | none => .error (.refused .unterminatedClass)
  | some c =>
    if c = ']' then .ok (none, pos)
    else if c = '\\' then (classEscape chars pos).map fun r => (some r.1, r.2)
    else if c = '-' then .ok (some .dash, pos)
    else .ok (some (.code c.toNat), pos)

def classToken (pos : Nat) : Except Stop (Token × Nat) := do
  let (negated, pos) ← eat chars '^' pos
  let (atoms, pos) ← loop (classAtom? chars) (turns chars) pos
  match ClassItem.ofAtoms atoms with
  | .ok items => .ok (.charClass negated items, pos)
  | .error e => .error (.refused e)

def groupOpening (pos : Nat) : Except Stop (GroupOpening × Nat) := do
  let (c?, pos) ← next chars pos
  match c? with
  | some ':' => .ok (.plain, pos)
  | some '=' => .ok (.lookahead false, pos)
  | some '!' => .ok (.lookahead true, pos)
  | some '<' =>
    match chars[pos]? with
    | some '=' => (moveTo chars (pos + 1)).map fun pos => (.lookbehind false, pos)
    | some '!' => (moveTo chars (pos + 1)).map fun pos => (.lookbehind true, pos)
    | some _ => .ok (.named, pos)
    | none => .error (.refused .invalidGroup)
  | _ => .error (.refused .invalidGroup)

def digit? (pos : Nat) : Except Stop (Option Char × Nat) :=
  match chars[pos]?.filter Char.isDigit with
  | some d => (moveTo chars (pos + 1)).map fun pos => (some d, pos)
  | none => .ok (none, pos)

def escape (pos : Nat) : Except Stop (Token × Nat) := do
  let (c?, pos) ← next chars pos
  match c? with
  | none => .error (.refused .trailingEscape)
  | some c =>
    match NamedSet.ofLetter? c with
    | some (s, negated) => .ok (.set s negated, pos)
    | none =>
      if c = 'b' then .ok (.boundary false, pos)
      else if c = 'B' then .ok (.boundary true, pos)
      else if '1' ≤ c ∧ c ≤ '9' then
        (loop (digit? chars) (turns chars) pos).map fun r => (.backref (c :: r.1), r.2)
      else if c = 'k' ∧ chars[pos]? = some '<' then
        (through chars '>' (.invalidEscape 'k') (turns chars) pos).map fun r =>
          (.namedBackref r.1, r.2)
      else if c = 'p' ∨ c = 'P' then (propertyText chars c pos).map fun r => (.property r.1, r.2)
      else (codeEscape chars c pos).map fun r => (.code r.1, r.2)

def tokenAfter (c : Char) (pos : Nat) : Except Stop (Token × Nat) :=
  if c = '\\' then escape chars pos
  else if c = '[' then classToken chars pos
  else if c = ']' then .ok (.bracket, pos)
  else if c = '.' then .ok (.dot, pos)
  else if c = '(' then do
    let (special, pos) ← eat chars '?' pos
    if special then (groupOpening chars pos).map fun r => (.group r.1, r.2) else .ok (.raw c, pos)
  else .ok (.raw c, pos)

/-- One turn of the loop over the pattern: a token, or none at the end of the text. -/
def token? (pos : Nat) : Except Stop (Option Token × Nat) := do
  let (c?, pos) ← next chars pos
  match c? with
  | none => .ok (none, pos)
  | some c => (tokenAfter chars c pos).map fun r => (some r.1, r.2)

end Reading

/-- The characters from a position on are hexadecimal digits, at least as many as the count. -/
def DigitsFrom (chars : List Char) (start count : Nat) : Prop :=
  ∀ i < count, ∃ c, chars[start + i]? = some c ∧ (hexDigit? c).isSome = true

/-- Somewhere in the text stand more hexadecimal digits than can be counted. -/
def Uncounted (chars : List Char) : Prop := ∃ start, DigitsFrom chars start Word.countLimit

/-- From anywhere in a text, a turn of a loop that finds an item moves on, any other one does not
move back, and all end in the text. The turn only fails for an error in the pattern or for digits
that cannot be counted. -/
structure Progresses {α : Type} (chars : List Char) (body : Nat → Except Stop (Option α × Nat)) :
    Prop where
  onward {pos after : Nat} {item : α} (within : pos ≤ chars.length)
    (found : body pos = .ok (some item, after)) : pos < after ∧ after ≤ chars.length
  last {pos after : Nat} (within : pos ≤ chars.length) (stopped : body pos = .ok (none, after)) :
    pos ≤ after ∧ after ≤ chars.length
  safe {pos : Nat} {stop : Stop} (within : pos ≤ chars.length) (failed : body pos = .error stop) :
    (∃ e, stop = .refused e) ∨ (stop = .overflow ∧ Uncounted chars)

/-- The pattern in the syntax of a dialect, and the position at which reading ends. -/
def render (source : String) (dialect : Dialect) : Except Stop (Rendering × Nat) :=
  (loop (token? source.toList) (turns source.toList) 0).map fun r =>
    (Rendering.ofTokens dialect r.1, r.2)

end Cursor

end JsonRules.Pattern
