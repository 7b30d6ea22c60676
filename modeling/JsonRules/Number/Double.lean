/-!
# Finite doubles

A finite binary64 value is a sign and a magnitude counted in units of `2^-1074`, the
smallest positive double, so that every value is an exact natural number of units. A
magnitude is representable when it is a multiple of the spacing of the doubles around it
and lies below `2^1024`.

`Double.ofRatio` rounds a quotient to the nearest double, a tie to the even neighbour;
`Double.ofDecimal` reads a decimal that way.
-/

namespace JsonRules

/-- The quotient rounded to the nearest integer, a tie to the even one. -/
def roundDiv (num den : Nat) : Nat :=
  let q := num / den
  let r := num % den
  if 2 * r < den then q else if den < 2 * r then q + 1 else q + q % 2

namespace Double

/-- A power of two as a step of its own, so that large ones stay symbolic in proofs. -/
def twoPow (n : Nat) : Nat := Nat.pow 2 n

theorem twoPow_pos (n : Nat) : 0 < twoPow n := Nat.two_pow_pos n

/-- The distance between neighbouring doubles at a magnitude, in units. -/
def spacing (units : Nat) : Nat := twoPow (units.log2 - 52)

/-- The first magnitude beyond the finite doubles, `2^1024`, in units. -/
def overflow : Nat := twoPow 2098

def Representable (units : Nat) : Prop := spacing units ∣ units ∧ units < overflow

theorem representable_zero : Representable 0 :=
  ⟨Nat.dvd_zero _, twoPow_pos 2098⟩

instance (units : Nat) : Decidable (Representable units) :=
  inferInstanceAs (Decidable (_ ∧ _))

end Double

/-- A finite double. The two zeros differ in their sign only. -/
structure Double where
  negative : Bool
  units : Nat
  representable : Double.Representable units
  deriving DecidableEq

namespace Double

/-- The number of units in one. -/
def one : Nat := twoPow 1074

def ofUnits? (negative : Bool) (units : Nat) : Option Double :=
  if h : Representable units then some ⟨negative, units, h⟩ else none

def zero (negative : Bool) : Double := ⟨negative, 0, representable_zero⟩

/-- The double nearest to `num / den` units; `none` beyond the largest one. -/
def ofRatio (negative : Bool) (num den : Nat) : Option Double :=
  let step := spacing (num / den)
  ofUnits? negative (roundDiv num (den * step) * step)

/-- The double nearest to `digits * 10 ^ exponent`; `none` beyond the largest one. Exponents
that leave no choice are not raised to a power. -/
def ofDecimal (negative : Bool) (digits : Nat) (exponent : Int) : Option Double :=
  if digits = 0 then some (zero negative)
  else match exponent with
    | .ofNat e =>
      if 400 < e then none else ofRatio negative (digits * Nat.pow 10 e * one) 1
    | .negSucc e =>
      if 400 + digits.log2 < e then some (zero negative)
      else ofRatio negative (digits * one) (Nat.pow 10 (e + 1))

/-- The magnitude of the double nearest to a whole number, in ones. -/
def nearestWhole (n : Nat) : Nat :=
  let step := spacing n
  roundDiv n step * step

/-- The exact value in units. -/
def value (d : Double) : Int := if d.negative then -(d.units : Int) else d.units

def truncated (d : Double) : Int := d.value.tdiv one

def isIntegral (d : Double) : Bool := d.units % one == 0

/-- The value as an integer, if it is one of magnitude below `2^64`. -/
def toInt? (d : Double) : Option Int :=
  if d.isIntegral ∧ d.units < twoPow 64 * one then some (d.value / one) else none

end Double

end JsonRules
