import JsonRules.Number.Word
import JsonRules.Unicode.CodeSet

/-!
# Complements in 32 bits

The complement of a set of code points with every sum and difference taken in 32 bits.
-/

namespace JsonRules.Unicode.CodeSet

/-- The code points from `start` on that lie in none of the ranges, unless a bound of one of them
does not fit. -/
def complementFrom? : Nat → CodeSet → Option CodeSet
  | start, [] => some (if start ≤ maxCode then [⟨start, maxCode⟩] else [])
  | start, r :: rest => do
    let before ← if start < r.lo then do some [⟨start, ← Word.sub? r.lo 1⟩] else some []
    let after ← complementFrom? (← Word.add? r.hi 1) rest
    some (before ++ after)

end JsonRules.Unicode.CodeSet
