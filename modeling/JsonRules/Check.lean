import JsonRules.Pattern
import JsonRules.Value.Equal
import JsonRules.Value.Text
import JsonRules.Violation

/-!
# Checks

A check is the rule of one keyword that looks at a value as a whole and not into its items.
A check of numbers, strings or arrays passes every value of another kind. Null is listed by an
enumeration apart from all other values, which are compared by their canonical keys.
-/

namespace JsonRules

namespace RangeBound

/-- The bound admits a number that compares to the border as given. -/
def admits : RangeBound → Ordering → Bool
  | minimum, order => order != .lt
  | minimumExclusive, order => order == .gt
  | maximum, order => order != .gt
  | maximumExclusive, order => order == .lt

end RangeBound

namespace SizeBound

/-- The bound with the given limit admits a size. -/
def admits : SizeBound → Nat → Nat → Bool
  | least, limit, size => limit ≤ size
  | most, limit, size => size ≤ limit

end SizeBound

inductive Check where
  | type (kind : Kind)
  /-- One of the values that are listed with their keys, or null if it is allowed. -/
  | enum (allowed : List (String × Value)) (nullAllowed : Bool)
  | const (literal : Value)
  | multipleOf (divisor : Nat)
  | range (bound : RangeBound) (border : Number)
  /-- Bounds the number of characters. -/
  | length (bound : SizeBound) (limit : Nat)
  | pattern (pattern : Pattern)
  | arraySize (bound : SizeBound) (limit : Nat)
  | uniqueItems

/-- The positions of the first item that repeats an earlier one: the earlier position first.
`seen` lists the items before, with their positions. -/
def firstRepeatAfter? {α : Type} [DecidableEq α] :
    List (α × Nat) → Nat → List α → Option (Nat × Nat)
  | _, _, [] => none
  | seen, i, x :: rest =>
    match seen.lookup x with
    | some first => some (first, i)
    | none => firstRepeatAfter? ((x, i) :: seen) (i + 1) rest

/-- The positions of the first item that repeats an earlier one, and of that one before it. -/
def firstRepeat? {α : Type} [DecidableEq α] (items : List α) : Option (Nat × Nat) :=
  firstRepeatAfter? [] 0 items

/-- The values with their keys; of those that share a key the first one. -/
def keyed : List Value → List (String × Value)
  | [] => []
  | v :: rest => (v.key, v) :: (keyed rest).filter fun entry => entry.1 != v.key

def Value.isNull : Value → Bool
  | .null => true
  | _ => false

namespace Check

def enumeration (values : List Value) : Check :=
  enum (keyed (values.filter fun v => !v.isNull)) (values.any Value.isNull)

def keyword : Check → Keyword
  | type _ => .type
  | enum _ _ => .enum
  | const _ => .const
  | multipleOf _ => .multipleOf
  | range bound _ => .range bound
  | length bound _ => .length bound
  | pattern _ => .pattern
  | arraySize bound _ => .arraySize bound
  | uniqueItems => .uniqueItems

def violation? (check : Check) (value : Value) : Option Violation :=
  match check, value with
  | type kind, v => if kind.accepts v then none else some (.wrongKind kind)
  | enum _ nullAllowed, .null => if nullAllowed then none else some .notListed
  | enum allowed _, v => if allowed.any (·.1 == v.key) then none else some .notListed
  | const literal, v => if literal.equal v then none else some .notConst
  | multipleOf divisor, .num n =>
    if n.isMultipleOf divisor then none else some (.notMultiple divisor)
  | range bound border, .num n =>
    if bound.admits (n.compare border) then none else some (.outOfRange bound border)
  | length bound limit, .str s =>
    if bound.admits limit s.length then none else some (.wrongLength bound limit)
  | pattern p, .str s =>
    match p.isMatch s with
    | .ok true => none
    | .ok false => some (.noMatch p.source)
    | .error e => some (.matchFailed p.source e)
  | arraySize bound limit, .arr items =>
    if bound.admits limit items.length then none else some (.wrongSize bound limit)
  | uniqueItems, .arr items =>
    (firstRepeat? (items.map Value.key)).map fun r => .notUnique r.1 r.2
  | _, _ => none

end Check

end JsonRules
