import JsonRules.Pattern.CharSet
import JsonRules.Pattern.Token

/-!
# Patterns in the syntax of a matcher

A pattern in ECMA 262 syntax is matched by one of two matchers, and each has a syntax of its
own. A rendering of the pattern has its tokens one after the other in the matcher's syntax:
classes and escapes as explicit sets of code points, `.` as any character but the four line
terminators, everything else as it stands. The two dialects differ in the ASCII word boundary
only.

`Rendering.backtracking` says that the pattern looks around or refers back, which only the
backtracking matcher can do.
-/

namespace JsonRules.Pattern

open Unicode (CodeRange CodeSet)
open Text (upperHex)

inductive Dialect where
  /-- Matched in linear time. -/
  | linear
  /-- Has lookaround and backreferences. -/
  | backtracking
  deriving DecidableEq, Repr

def dotText : List Char := "[^\\n\\r\\x\x7b2028\x7d\\x\x7b2029\x7d]".toList

def anyText : List Char := "[\\x\x7b0\x7d-\\x\x7b10FFFF\x7d]".toList

/-- The set of no character. -/
def noneText : List Char := "[^\\x\x7b0\x7d-\\x\x7b10FFFF\x7d]".toList

def linearBoundaryText : List Char := "(?-u:\\b)".toList

def boundaryText : List Char :=
  "(?:(?<=[0-9A-Z_a-z])(?![0-9A-Z_a-z])|(?<![0-9A-Z_a-z])(?=[0-9A-Z_a-z]))".toList

def noBoundaryText : List Char :=
  "(?:(?<=[0-9A-Z_a-z])(?=[0-9A-Z_a-z])|(?<![0-9A-Z_a-z])(?![0-9A-Z_a-z]))".toList

def hexText (code : Nat) : List Char := '\\' :: 'x' :: '{' :: upperHex code ++ ['}']

/-- A code point in a class: an ASCII letter, a digit or `_` as it is, others by number. -/
def classCodeText (code : Nat) : List Char :=
  let c := Char.ofNat code
  if code < 128 ∧ (c.isAlphanum ∨ c = '_') then [c] else hexText code

/-- A range without surrogates, of at least one code point. -/
def plainRangeText (lo hi : Nat) : List Char :=
  if hi < lo then []
  else if lo = hi then classCodeText lo
  else classCodeText lo ++ '-' :: classCodeText hi

/-- A range in a class, without the surrogates, which are not characters. -/
def rangeText (lo hi : Nat) : List Char :=
  plainRangeText lo (min hi 0xD7FF) ++ plainRangeText (max lo 0xE000) hi

def rangesText (codes : CodeSet) : List Char := codes.flatMap fun r => rangeText r.lo r.hi

def setText (negated : Bool) (codes : CodeSet) : List Char :=
  '[' :: (if negated then ['^'] else []) ++ rangesText codes ++ [']']

def isSurrogate (code : Nat) : Bool := isHighSurrogate code || isLowSurrogate code

/-- One code point outside of a class. A lone surrogate is no character and never matches. -/
def codeText (code : Nat) : List Char :=
  if isSurrogate code then noneText
  else
    let c := Char.ofNat code
    if Unicode.isControl c || Unicode.isWhiteSpace c then hexText code
    else if isMeta c then ['\\', c]
    else [c]

namespace ClassItem

def text : ClassItem → List Char
  | range lo hi => rangeText lo hi
  | dash => ['\\', '-']
  | set codes => rangesText codes
  | property text => text

end ClassItem

/-- A class; one that is left without members matches nothing, and negated anything. -/
def classText (negated : Bool) (items : List ClassItem) : List Char :=
  let body := items.flatMap ClassItem.text
  if body.isEmpty then if negated then anyText else noneText
  else '[' :: (if negated then ['^'] else []) ++ body ++ [']']

namespace GroupOpening

def text : GroupOpening → List Char
  | plain => "(?:".toList
  | named => "(?P<".toList
  | lookahead false => "(?=".toList
  | lookahead true => "(?!".toList
  | lookbehind false => "(?<=".toList
  | lookbehind true => "(?<!".toList

end GroupOpening

namespace Token

def text (dialect : Dialect) : Token → List Char
  | raw c => [c]
  | bracket => ['\\', ']']
  | dot => dotText
  | group opening => opening.text
  | set named negated => setText negated named.codes
  | boundary false =>
    match dialect with
    | .linear => linearBoundaryText
    | .backtracking => boundaryText
  | boundary true => noBoundaryText
  | backref digits => '\\' :: digits
  | namedBackref name => '\\' :: 'k' :: name
  | property text => text
  | code c => codeText c
  | charClass negated items => classText negated items

end Token

/-- A pattern in the syntax of a matcher. -/
structure Rendering where
  text : List Char
  /-- The pattern looks around or refers back. -/
  backtracking : Bool
  deriving DecidableEq, Repr

namespace Rendering

def ofTokens (dialect : Dialect) (tokens : List Token) : Rendering :=
  ⟨tokens.flatMap (Token.text dialect), tokens.any Token.backtracks⟩

end Rendering

/-- The pattern in the syntax of a dialect, or the first error in it. -/
def render (source : String) (dialect : Dialect) : Except PatternError Rendering :=
  (Token.scan source.toList).map (Rendering.ofTokens dialect)

end JsonRules.Pattern
