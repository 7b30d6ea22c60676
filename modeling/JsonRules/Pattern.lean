import JsonRules.Pattern.Backtrack.Machine
import JsonRules.Pattern.Backtrack.Reader
import JsonRules.Pattern.Linear.Plan
import JsonRules.Pattern.Linear.Reader
import JsonRules.Pattern.Linear.Size
import JsonRules.Pattern.Rendering

/-!
# Patterns

A pattern in ECMA 262 syntax, compiled for one of two matchers. One that neither looks around
nor refers back is matched in linear time. Any other one is matched by backtracking, and only
such a match can be given up. A pattern matches a text if it matches any part of it.
-/

namespace JsonRules

/-- What a pattern may take: the bytes of its program in the linear matcher, and the steps
back of a match in the backtracking one. -/
structure PatternLimits where
  size : Nat
  steps : Nat
  deriving DecidableEq, Repr

def PatternLimits.default : PatternLimits := ⟨0x100000, 1000000⟩

namespace Pattern

inductive Matcher where
  | linear (regex : Linear.Regex)
  | backtracking (program : Backtrack.Program Backtrack.Piece) (groups limit : Nat)

namespace Matcher

def isBacktracking : Matcher → Bool
  | linear _ => false
  | backtracking _ _ _ => true

def linear? (limits : PatternLimits) (text : List Char) : Option Matcher := do
  let regex ← Linear.Regex.ofText? text
  if regex.fits limits.size then some (linear regex) else none

def backtracking? (limits : PatternLimits) (text : List Char) : Option Matcher := do
  let expr ← Backtrack.Expr.ofText? text
  let program ← expr.search?
  some (backtracking program expr.groups limits.steps)

/-- The pattern matches somewhere in the text, unless the match is given up. -/
def isMatch (text : List Char) : Matcher → Except PatternError Bool
  | linear regex => .ok (regex.isMatch text)
  | backtracking program groups limit =>
    match program.search groups limit text with
    | .matched => .ok true
    | .unmatched => .ok false
    | .stopped => .error .stepLimit

end Matcher

end Pattern

structure Pattern where
  source : String
  matcher : Pattern.Matcher

namespace Pattern

/-- Compiles a pattern. Errors in its own syntax come before a refusal by the matcher. -/
def compile (limits : PatternLimits) (source : String) : Except PatternError Pattern := do
  let rendering ← render source .linear
  let matcher? ←
    if rendering.backtracking then do
      let rendering ← render source .backtracking
      pure (Matcher.backtracking? limits rendering.text)
    else pure (Matcher.linear? limits rendering.text)
  match matcher? with
  | some matcher => .ok ⟨source, matcher⟩
  | none => .error .refused

def isBacktracking (p : Pattern) : Bool := p.matcher.isBacktracking

def isMatch (p : Pattern) (text : String) : Except PatternError Bool :=
  p.matcher.isMatch text.toList

end Pattern

end JsonRules
