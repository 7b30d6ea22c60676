/-!
# Sets of code points

A set of code points as a list of inclusive ranges. A set is `Normal` when its ranges are
non-empty, in increasing order and disjoint; `complement` is exact on normal sets.
-/

namespace JsonRules.Unicode

/-- The code points from `lo` to `hi`, both included. -/
structure CodeRange where
  lo : Nat
  hi : Nat
  deriving DecidableEq, Repr

abbrev CodeSet := List CodeRange

def maxCode : Nat := 0x10FFFF

namespace CodeSet

def contains (s : CodeSet) (code : Nat) : Bool := s.any fun r => r.lo ≤ code && code ≤ r.hi

def has (s : CodeSet) (c : Char) : Bool := s.contains c.toNat

/-- From `start` on, the ranges are non-empty, in increasing order and disjoint. -/
def NormalFrom : Nat → CodeSet → Prop
  | _, [] => True
  | start, r :: rest => start ≤ r.lo ∧ r.lo ≤ r.hi ∧ r.hi ≤ maxCode ∧ NormalFrom (r.hi + 1) rest

def Normal (s : CodeSet) : Prop := NormalFrom 0 s

/-- The code points from `start` on that lie in none of the ranges. -/
def complementFrom : Nat → CodeSet → CodeSet
  | start, [] => if start ≤ maxCode then [⟨start, maxCode⟩] else []
  | start, r :: rest =>
    if start < r.lo then ⟨start, r.lo - 1⟩ :: complementFrom (r.hi + 1) rest
    else complementFrom (r.hi + 1) rest

/-- The code points outside of a normal set. -/
def complement (s : CodeSet) : CodeSet := complementFrom 0 s

/-- A range and those after it, in the order of their lower ends, with those joined that
overlap or touch. -/
def joinFrom (r : CodeRange) : CodeSet → CodeSet
  | [] => [r]
  | next :: rest =>
    if next.lo ≤ r.hi + 1 then joinFrom ⟨r.lo, max r.hi next.hi⟩ rest
    else r :: joinFrom next rest

/-- Ranges in the order of their lower ends with those joined that overlap or touch. -/
def join : CodeSet → CodeSet
  | [] => []
  | r :: rest => joinFrom r rest

def ofRanges (ranges : List CodeRange) : CodeSet :=
  join ((ranges.filter fun r => r.lo ≤ r.hi).mergeSort fun a b => a.lo ≤ b.lo)

def difference (s t : CodeSet) : CodeSet := complement (ofRanges (complement s ++ t))

end CodeSet

end JsonRules.Unicode
