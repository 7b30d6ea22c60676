import JsonRules.Pattern.CharSet

/-!
# Regular expressions

The expressions that are matched in linear time: sets of characters, assertions about a
position, sequences, alternatives and repetitions. Groups leave no trace, as only the fact of
a match is asked for. `Regex.Spans` says which stretches of a text an expression matches.
-/

namespace JsonRules.Pattern.Linear

open Unicode (CodeSet)

inductive Assertion where
  | start
  | stop
  /-- One neighbour is an ASCII word character and the other is not. -/
  | wordBoundary
  deriving DecidableEq, Repr

inductive Regex where
  | empty
  | set (chars : CodeSet)
  | assert (assertion : Assertion)
  | seq (first second : Regex)
  | alt (left right : Regex)
  /-- From `least` to `most` times, or without an upper bound; `greedy` prefers more. -/
  | rep (least : Nat) (most : Option Nat) (greedy : Bool) (body : Regex)
  deriving DecidableEq, Repr

def isWordChar (c : Char) : Bool := c.isAlphanum || c = '_'

def wordAt (text : List Char) (i : Nat) : Bool := (text[i]?).any isWordChar

def wordBefore (text : List Char) : Nat → Bool
  | 0 => false
  | i + 1 => wordAt text i

namespace Assertion

def holds (text : List Char) (i : Nat) : Assertion → Bool
  | start => i == 0
  | stop => i == text.length
  | wordBoundary => wordBefore text i != wordAt text i

end Assertion

/-- `Times R n i j`: `n` stretches related by `R` lead from position `i` to position `j`. -/
def Times (R : Nat → Nat → Prop) : Nat → Nat → Nat → Prop
  | 0, i, j => i = j
  | n + 1, i, k => ∃ j, R i j ∧ Times R n j k

namespace Regex

/-- `r.Spans text i j`: the expression matches the text from position `i` to position `j`. -/
inductive Spans (text : List Char) : Regex → Nat → Nat → Prop where
  | empty {i : Nat} : Spans text empty i i
  | set {s : CodeSet} {i : Nat} {c : Char} (h : text[i]? = some c) (hc : s.has c = true) :
      Spans text (set s) i (i + 1)
  | assert {a : Assertion} {i : Nat} (hi : i ≤ text.length) (h : a.holds text i = true) :
      Spans text (assert a) i i
  | seq {r s : Regex} {i j k : Nat} (hr : Spans text r i j) (hs : Spans text s j k) :
      Spans text (seq r s) i k
  | altLeft {r s : Regex} {i j : Nat} (h : Spans text r i j) : Spans text (alt r s) i j
  | altRight {r s : Regex} {i j : Nat} (h : Spans text s i j) : Spans text (alt r s) i j
  | repDone {most : Option Nat} {g : Bool} {r : Regex} {i : Nat} :
      Spans text (rep 0 most g r) i i
  | repMore {least : Nat} {most : Option Nat} {g : Bool} {r : Regex} {i j k : Nat}
      (hm : most ≠ some 0) (hr : Spans text r i j)
      (hs : Spans text (rep (least - 1) (most.map (· - 1)) g r) j k) :
      Spans text (rep least most g r) i k

def Matches (r : Regex) (text : List Char) : Prop :=
  ∃ i j, i ≤ text.length ∧ r.Spans text i j

end Regex

end JsonRules.Pattern.Linear
