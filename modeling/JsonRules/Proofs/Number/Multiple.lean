import JsonRules.Proofs.Number.Exact
import JsonRules.Proofs.Number.ReadBack
import JsonRules.Rule.Accept

/-!
# Multiples

Which numbers are multiples of a divisor, by their exact values. A number of magnitude below `2^64`
is divided by the divisor itself. A larger one is a double and is divided by the double nearest to
the divisor: this is the divisor if a double can hold it, and else another number.
-/

namespace JsonRules

namespace Double

def HoldsWhole (n : Nat) : Prop := ∃ d : Double, d.value = (n : Int) * one

theorem twoPow_add (m n : Nat) : twoPow (m + n) = twoPow m * twoPow n := Nat.pow_add 2 m n

theorem log2_mul_twoPow {n : Nat} (hn : n ≠ 0) (k : Nat) : (n * twoPow k).log2 = n.log2 + k := by
  have hpos : n * twoPow k ≠ 0 := Nat.mul_ne_zero hn (by have := twoPow_pos k; omega)
  have hlow := Nat.log2_self_le hn
  have hhigh : n < 2 ^ (n.log2 + 1) := Nat.lt_log2_self
  rw [Nat.log2_eq_iff hpos, twoPow_eq]
  constructor
  · rw [Nat.pow_add]
    exact Nat.mul_le_mul_right _ hlow
  · rw [Nat.add_right_comm, Nat.pow_add]
    exact Nat.mul_lt_mul_of_pos_right hhigh (Nat.two_pow_pos k)

theorem spacing_dvd_of_holdsWhole {n : Nat} (h : HoldsWhole n) : spacing n ∣ n := by
  obtain ⟨d, hd⟩ := h
  have hunits : d.units = n * one := by
    rw [← natAbs_value, hd, Int.natAbs_mul, Int.natAbs_natCast, Int.natAbs_natCast]
  by_cases hn : n = 0
  · rw [hn]
    exact Nat.dvd_zero _
  · have hdvd := d.representable.1
    rw [hunits, spacing, one, log2_mul_twoPow hn] at hdvd
    unfold spacing
    by_cases hsmall : n.log2 ≤ 52
    · rw [Nat.sub_eq_zero_of_le hsmall]
      exact Nat.one_dvd n
    · -- the spacing at `n * one` is that at `n`, in units
      have hshift : n.log2 + 1074 - 52 = n.log2 - 52 + 1074 := by omega
      rw [hshift, twoPow_add] at hdvd
      exact Nat.dvd_of_mul_dvd_mul_right (twoPow_pos 1074) hdvd

/-- A whole number that a double can hold is not rounded. -/
theorem nearestWhole_of_holdsWhole {n : Nat} (h : HoldsWhole n) : nearestWhole n = n := by
  obtain ⟨q, hq⟩ := spacing_dvd_of_holdsWhole h
  have hround := roundDiv_mul_self (spacing_pos n) q
  rw [Nat.mul_comm, ← hq] at hround
  show roundDiv n (spacing n) * spacing n = n
  rw [hround, Nat.mul_comm, ← hq]

theorem units_lt_of_toInt? {d : Double} {i : Int} (h : d.toInt? = some i) :
    d.units < twoPow 64 * one := by
  unfold toInt? at h
  split at h
  · next hc => exact hc.2
  · cases h

theorem not_units_lt_of_toInt? {d : Double} (h : d.toInt? = none) (hint : d.isIntegral = true) :
    ¬ d.units < twoPow 64 * one := by
  intro hsmall
  unfold toInt? at h
  rw [if_pos ⟨hint, hsmall⟩] at h
  cases h

end Double

namespace Number

open Double (one one_pos twoPow nearestWhole)

def IsMultiple (n : Number) (divisor : Nat) : Prop := ∃ k : Int, n.scaled = k * divisor * one

/-- The magnitude is below `2^64`. -/
def IsSmall (n : Number) : Prop := n.scaled.natAbs < twoPow 64 * one

instance (n : Number) : Decidable n.IsSmall := inferInstanceAs (Decidable (_ < _))

/-- What a number is divided by to tell whether it is a multiple of the divisor. -/
def divisorFor (n : Number) (divisor : Nat) : Nat :=
  if n.IsSmall then divisor else nearestWhole divisor

theorem isSmall_int (i : Int) (hi : -0x8000000000000000 ≤ i ∧ i < 0x10000000000000000) :
    (int i hi).IsSmall := by
  show (i * one).natAbs < _
  rw [Int.natAbs_mul, Int.natAbs_natCast]
  exact Nat.mul_lt_mul_of_pos_right (natAbs_lt hi) (Double.twoPow_pos 1074)

theorem isMultiple_of_scaled {n : Number} {i : Int} (h : n.scaled = i * one) (divisor : Nat) :
    n.IsMultiple divisor ↔ i % divisor = 0 := by
  have hone := one_pos
  unfold IsMultiple
  rw [h, ← Int.dvd_iff_emod_eq_zero]
  constructor
  · rintro ⟨k, hk⟩
    exact ⟨k, by rw [Int.mul_comm]; exact Int.eq_of_mul_eq_mul_right (by omega) hk⟩
  · rintro ⟨k, rfl⟩
    exact ⟨k, by rw [Int.mul_comm k]⟩

theorem isIntegral_of_isMultiple {n : Number} {divisor : Nat} (h : n.IsMultiple divisor) :
    n.isIntegral = true := by
  obtain ⟨k, hk⟩ := h
  exact isIntegral_iff.2 ⟨k * divisor, hk⟩

theorem isSmall_float_iff {d : Double} : (float d).IsSmall ↔ d.units < twoPow 64 * one := by
  show d.value.natAbs < _ ↔ _
  rw [Double.natAbs_value]

/-- The remainder of a double of magnitude `2^64` or more is taken exactly. -/
theorem units_mod_eq_zero_iff {d : Double} (h : d.isIntegral = true) (divisor : Nat) :
    d.units / one % divisor = 0 ↔ (float d).IsMultiple divisor := by
  obtain ⟨i, hi⟩ := Double.isIntegral_iff.1 h
  have hunits : d.units / one = i.natAbs := by
    rw [← Double.natAbs_value, hi, Int.natAbs_mul, Int.natAbs_natCast]
    exact Nat.mul_div_cancel _ (Double.twoPow_pos 1074)
  rw [isMultiple_of_scaled (n := float d) hi, hunits, ← Nat.dvd_iff_mod_eq_zero,
    ← Int.dvd_iff_emod_eq_zero, Int.natCast_dvd]

/-- A number passes as a multiple exactly if it is one of what it is divided by. -/
theorem isMultipleOf_iff (n : Number) (divisor : Nat) :
    n.isMultipleOf divisor = true ↔ n.IsMultiple (n.divisorFor divisor) := by
  cases n with
  | int i hi =>
    rw [divisorFor, if_pos (isSmall_int i hi), isMultiple_of_scaled rfl, isMultipleOf, beq_iff_eq]
  | float d =>
    unfold isMultipleOf divisorFor
    simp only [isSmall_float_iff]
    split
    · next i hi =>
      have hvalue := (Double.toInt?_eq_some.1 hi).1
      rw [if_pos (Double.units_lt_of_toInt? hi), isMultiple_of_scaled (n := float d) hvalue,
        beq_iff_eq]
    · next hnone =>
      by_cases hint : d.isIntegral = true
      · rw [if_neg (Double.not_units_lt_of_toInt? hnone hint), hint, Bool.true_and, beq_iff_eq,
          units_mod_eq_zero_iff hint]
      · -- a number with a fraction is no multiple of anything
        rw [Bool.eq_false_iff.2 hint, Bool.false_and]
        exact ⟨fun h => absurd h Bool.false_ne_true,
          fun h => absurd (isIntegral_of_isMultiple h) hint⟩

theorem holds_multipleOf {n : Number} {divisor : Nat} :
    (Check.multipleOf divisor).Holds (.num n) ↔ n.isMultipleOf divisor = true := by
  unfold Check.Holds Check.violation?
  split <;> simp_all

theorem divisorFor_eq {n : Number} {divisor : Nat} (h : n.IsSmall ∨ Double.HoldsWhole divisor) :
    n.divisorFor divisor = divisor := by
  unfold divisorFor
  split
  · rfl
  · next hlarge => exact Double.nearestWhole_of_holdsWhole (h.resolve_left hlarge)

/-- A check passes the multiples of its divisor, as long as the number is below `2^64` or a double
holds the divisor; any other number is measured by the double next to the divisor. -/
theorem multipleOf_holds_iff (n : Number) (divisor : Nat) :
    ((Check.multipleOf divisor).Holds (.num n) ↔ n.IsMultiple (n.divisorFor divisor)) ∧
      (n.IsSmall ∨ Double.HoldsWhole divisor → n.divisorFor divisor = divisor) := by
  constructor
  · rw [holds_multipleOf, isMultipleOf_iff]
  · exact divisorFor_eq

/-- The first whole number beyond the integers, which is a double. -/
def beyondInt : Number := float ⟨false, twoPow 64 * one, by decide +kernel⟩

theorem ofInteger_beyondInt : ofInteger false 0x10000000000000000 = some beyondInt := by
  decide +kernel

theorem scaled_beyondInt : beyondInt.scaled = (0x10000000000000000 : Int) * one := by
  rw [← Int.ofNat_eq_natCast one]
  exact Int.natCast_mul (twoPow 64) one

theorem holds_beyondInt : (Check.multipleOf 0x20000000000001).Holds (.num beyondInt) :=
  holds_multipleOf.2 (by decide +kernel)

theorem not_isMultiple_beyondInt : ¬ beyondInt.IsMultiple 0x20000000000001 := by
  rintro ⟨k, hk⟩
  rw [scaled_beyondInt] at hk
  have hquot := Int.eq_of_mul_eq_mul_right (by have := Double.one_pos; omega) hk
  omega

/-- The number `2^64` passes as a multiple of `2^53 + 1`. -/
theorem multipleOf_holds_odd :
    ofInteger false 0x10000000000000000 = some beyondInt ∧
      (Check.multipleOf 0x20000000000001).Holds (.num beyondInt) ∧
        ¬ beyondInt.IsMultiple 0x20000000000001 :=
  ⟨ofInteger_beyondInt, holds_beyondInt, not_isMultiple_beyondInt⟩

end Number

end JsonRules
