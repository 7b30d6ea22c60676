import JsonRules.Pattern.Linear.Regex

/-!
# Program sizes

The size limit of a pattern bounds the program that the linear matcher makes of it, in bytes. How
large that is depends on how the matcher makes it, so `Regex.size` only estimates it: a state for
each byte of the characters that are matched, transitions for the ranges of a set, a copy of the
body for each time that a counted repetition asks for it. Patterns that stand for a short list of
words are searched for as such, without a program. Whatever depends on the size asks `Regex.fits`,
and no more is used of it than that what fits under a limit fits under a larger one.
-/

namespace JsonRules.Pattern.Linear

open Unicode (CodeSet)

def stateSize : Nat := 32

def transitionSize : Nat := 8

/-- The bytes that a character takes in UTF-8. -/
def encodedLength (code : Nat) : Nat :=
  if code < 0x80 then 1 else if code < 0x800 then 2 else if code < 0x10000 then 3 else 4

def setSize : CodeSet → Nat
  | [r] =>
    if r.lo = r.hi then encodedLength r.lo * stateSize
    else if r.hi < 0x80 then stateSize
    else 8 * stateSize
  | codes =>
    if codes.all fun r => r.hi < 0x80 then stateSize + codes.length * transitionSize
    else 10 * stateSize + codes.length * 3 * transitionSize

/-- How many characters a set has, if they are few. -/
def fewMembers? (codes : CodeSet) : Option Nat :=
  let n := codes.foldl (fun n r => n + (r.hi + 1 - r.lo)) 0
  if 10 < n then none else some n

namespace Regex

/-- The most characters that a match can take; `none` if there is no bound. -/
def maxLength? : Regex → Option Nat
  | empty => some 0
  | set _ => some 1
  | assert _ => some 0
  | seq r s => do return (← r.maxLength?) + (← s.maxLength?)
  | alt r s => do return max (← r.maxLength?) (← s.maxLength?)
  | rep _ most _ r =>
    if r.maxLength? = some 0 then some 0
    else do return (← most) * (← r.maxLength?)

/-- The size of the program of an expression. A body without length is never copied. -/
def size : Regex → Nat
  | empty => stateSize
  | set s => setSize s
  | assert _ => stateSize
  | seq r s => r.size + s.size
  | alt r s => stateSize + transitionSize + r.size + s.size
  | rep least most _ r =>
    let copies := match most with
      | some n => n
      | none => max 1 least
    stateSize + (if r.maxLength? = some 0 then min 1 copies else copies) * (r.size + stateSize)

/-- How many words an expression stands for, if it is a short list of words. -/
def words? : Regex → Option Nat
  | set s => fewMembers? s
  | seq r s => do
    let n := (← r.words?) * (← s.words?)
    if n ≤ 250 then some n else none
  | alt r s => do
    let n := (← r.words?) + (← s.words?)
    if n ≤ 3000 then some n else none
  | _ => none

/-- By the estimate, the program fits into a number of bytes. -/
def fits (r : Regex) (limit : Nat) : Bool := r.words?.isSome || r.size ≤ limit

theorem fits_mono {r : Regex} {limit larger : Nat} (hle : limit ≤ larger)
    (h : r.fits limit = true) : r.fits larger = true := by
  simp only [fits, Bool.or_eq_true, decide_eq_true_eq] at h ⊢
  exact h.imp_right fun hsize => Nat.le_trans hsize hle

end Regex

end JsonRules.Pattern.Linear
