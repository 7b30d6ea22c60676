import JsonRules.Number.Decimal

/-!
# Numbers

A number keeps how it was written: an integer of 64 bits, signed or unsigned, or a double.
`Number.scaled` is its exact value in units of `2^-1074`. Numbers are compared without rounding:
an integer never becomes a double, and a double becomes an integer only if it is small enough.
-/

namespace JsonRules

inductive Number where
  | int (value : Int) (bounded : -0x8000000000000000 ≤ value ∧ value < 0x10000000000000000)
  | float (value : Double)
  deriving DecidableEq

namespace Number

/-- The number of a literal without fraction and exponent. Integers outside of the 64-bit
ranges are doubles, and so is `-0`. -/
def ofInteger (negative : Bool) (n : Nat) : Option Number :=
  let value : Int := if negative then -(n : Int) else n
  if negative ∧ n = 0 then some (float (Double.zero true))
  else if h : -0x8000000000000000 ≤ value ∧ value < 0x10000000000000000 then some (int value h)
  else (Double.ofDecimal negative n 0).map float

def ofDecimal (negative : Bool) (digits : Nat) (exponent : Int) : Option Number :=
  (Double.ofDecimal negative digits exponent).map float

/-- The exact value in units of `2^-1074`. -/
def scaled : Number → Int
  | int i _ => i * Double.one
  | float d => d.value

/-- The order of an integer of 64 bits and a double. A double of magnitude `2^64` or more lies
beyond the integer; any other one is cut off first, and the part cut off decides a tie. -/
def compareInt (i : Int) (d : Double) : Ordering :=
  let limit : Int := Double.twoPow 64 * Double.one
  if limit ≤ d.value then .lt
  else if d.value ≤ -limit then .gt
  else match Ord.compare i d.truncated with
    | .eq => Ord.compare (d.truncated * Double.one) d.value
    | order => order

def compare : Number → Number → Ordering
  | int i _, int j _ => Ord.compare i j
  | float x, float y => Ord.compare x.value y.value
  | int i _, float y => compareInt i y
  | float x, int j _ => (compareInt j x).swap

def isIntegral : Number → Bool
  | int _ _ => true
  | float d => d.isIntegral

/-- The value as an integer, if it is one of magnitude below `2^64`. -/
def toInt? : Number → Option Int
  | int i _ => some i
  | float d => d.toInt?

/-- The value as a size: a non-negative integer up to `2^64`, where the largest 64-bit
integer stands for `2^64` itself. -/
def toSize? : Number → Option Nat
  | int i _ => if 0 ≤ i then some i.toNat else none
  | float d =>
    if d.isIntegral ∧ 0 ≤ d.value ∧ d.units ≤ Double.twoPow 64 * Double.one then
      some (min (d.units / Double.one) 0xFFFFFFFFFFFFFFFF)
    else none

/-- An integer multiple of the divisor. A double of magnitude `2^64` or more is divided by
the double nearest to the divisor. -/
def isMultipleOf (divisor : Nat) : Number → Bool
  | int i _ => i % divisor == 0
  | float d =>
    match d.toInt? with
    | some i => i % divisor == 0
    | none => d.isIntegral && d.units / Double.one % Double.nearestWhole divisor == 0

/-- Doubles in JSON text: an explicit `+`, and a tie goes to the even digit. -/
def jsonLayout : DecimalLayout := ⟨-5, 15, true, false⟩

/-- Doubles in a canonical key: no `+`, and a tie goes away from zero. -/
def keyLayout : DecimalLayout := ⟨-4, 15, false, true⟩

/-- The decimal digits of an integer, after a `-` if it is negative. -/
def integerText (i : Int) : List Char :=
  if i < 0 then '-' :: Nat.toDigits 10 i.natAbs else Nat.toDigits 10 i.natAbs

def text : Number → List Char
  | int i _ => integerText i
  | float d => jsonLayout.write d

def keyText : Number → List Char
  | int i _ => integerText i
  | float d =>
    match d.toInt? with
    | some i => integerText i
    | none => keyLayout.write d

end Number

end JsonRules
