import JsonRules.Number.Double

/-!
# Shortest decimals

The decimal text of a double has the fewest significant digits that read back as the same
double, and among those the ones nearest to it. The digits come from the exact decimal
expansion, which is finite: a magnitude of `n` units is `n * 5^1074` in units of `10^-1074`.
For each length the two neighbours on that decimal grid are tried, the nearer one first.

How the digits are laid out is a `DecimalLayout`.
-/

namespace JsonRules

/-- A decimal `digits * 10 ^ exponent`. -/
structure Decimal where
  digits : Nat
  exponent : Int
  deriving DecidableEq, Repr

namespace Decimal

def normalize : Nat → Decimal → Decimal
  | 0, d => d
  | fuel + 1, d =>
    if d.digits ≠ 0 ∧ d.digits % 10 = 0 then normalize fuel ⟨d.digits / 10, d.exponent + 1⟩
    else d

def text (d : Decimal) : List Char := Nat.toDigits 10 d.digits

end Decimal

namespace Double

def readsFrom (x : Double) (d : Decimal) : Bool :=
  ofDecimal x.negative d.digits d.exponent == some x

def exactDecimal (x : Double) : Decimal := ⟨x.units * Nat.pow 5 1074, -1074⟩

/-- A decimal with the first `keep` of the `total` digits of the exact expansion that reads
back as the double, if one does; `tiesUp` says which neighbour is nearer in a tie. -/
def shortened? (x : Double) (tiesUp : Bool) (total keep : Nat) : Option Decimal :=
  let exact := x.exactDecimal
  let drop := total - keep
  let grid := Nat.pow 10 drop
  let low : Decimal := ⟨exact.digits / grid, exact.exponent + drop⟩
  let high : Decimal := ⟨exact.digits / grid + 1, exact.exponent + drop⟩
  let rest := exact.digits % grid
  let upFirst := grid < 2 * rest || (2 * rest == grid && (tiesUp || low.digits % 2 == 1))
  let first := if upFirst then high else low
  let second := if upFirst then low else high
  if x.readsFrom first then some first
  else if x.readsFrom second then some second
  else none

/-- The shortest decimal that reads back as the double; the exact expansion always does. -/
def shortest (x : Double) (tiesUp : Bool) : Decimal :=
  if x.units = 0 then ⟨0, 0⟩
  else
    let exact := x.exactDecimal
    let total := exact.text.length
    let found := (List.range 17).findSome? fun n => x.shortened? tiesUp total (n + 1)
    Decimal.normalize total (found.getD exact)

end Double

/-- How a decimal is written. With one digit before the point, exponents from
`leastPositional` to `mostPositional` are written positionally and the others after an `e`. -/
structure DecimalLayout where
  leastPositional : Int
  mostPositional : Int
  /-- A positive exponent has a `+`. -/
  plus : Bool
  /-- The neighbour away from zero is taken in a tie, not the even one. -/
  tiesUp : Bool
  deriving Repr

namespace DecimalLayout

/-- The digits with a point after the first `whole` of them, and at least one digit on both
sides of it. -/
def positional (digits : List Char) (whole : Int) : List Char :=
  if whole ≤ 0 then ['0', '.'] ++ List.replicate (-whole).toNat '0' ++ digits
  else
    let w := whole.toNat
    let padded := digits ++ List.replicate (w - digits.length) '0'
    let fraction := padded.drop w
    padded.take w ++ '.' :: (if fraction.isEmpty then ['0'] else fraction)

def scientific (plus : Bool) (digits : List Char) (power : Int) : List Char :=
  let mantissa := match digits with
    | d :: e :: rest => d :: '.' :: e :: rest
    | short => short
  let sign := if power < 0 then ['-'] else if plus then ['+'] else []
  mantissa ++ 'e' :: sign ++ Nat.toDigits 10 power.natAbs

def magnitude (layout : DecimalLayout) (d : Decimal) : List Char :=
  let power := d.exponent + d.text.length - 1
  if layout.leastPositional ≤ power ∧ power ≤ layout.mostPositional then
    positional d.text (power + 1)
  else scientific layout.plus d.text power

def write (layout : DecimalLayout) (x : Double) : List Char :=
  let magnitude := layout.magnitude (x.shortest layout.tiesUp)
  if x.negative then '-' :: magnitude else magnitude

end DecimalLayout

end JsonRules
