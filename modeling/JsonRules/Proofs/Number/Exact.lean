import JsonRules.Number

/-!
# Exact values

`Number.scaled` is the exact value of a number in units of `2^-1074`. Comparison, wholeness and
the integer that a number stands for are read off that value, whichever way the number is
written: `Number.compare_eq` puts the four pairs of representations and the cut off at `2^64`
into one order of integers.
-/

namespace JsonRules

namespace Double

theorem one_pos : (0 : Int) < one := Int.natCast_pos.2 (twoPow_pos 1074)

theorem twoPow_64 : twoPow 64 = 0x10000000000000000 := rfl

theorem natAbs_value (d : Double) : d.value.natAbs = d.units := by
  unfold value; split <;> simp

theorem value_eq_zero {d : Double} : d.value = 0 ↔ d.units = 0 := by
  rw [← natAbs_value, Int.natAbs_eq_zero]

/-- Apart from the two zeros, a double is given by its value. -/
theorem eq_of_value_eq {d e : Double} (h : d.value = e.value) (h0 : d.units ≠ 0) : d = e := by
  obtain ⟨s, m, hm⟩ := d
  obtain ⟨t, n, hn⟩ := e
  have hu : m = n := by simpa only [natAbs_value] using congrArg Int.natAbs h
  subst hu
  have hs : s = t := by
    simp only at h0
    cases s <;> cases t <;> simp [value] at h <;> first | rfl | omega
  rw [hs]

/-- Cutting off moves toward zero by less than one. -/
theorem truncated_bounds (d : Double) :
    (0 ≤ d.value ∧ d.truncated * one ≤ d.value ∧ d.value < d.truncated * one + one) ∨
      (d.value < 0 ∧ d.truncated * one - one < d.value ∧ d.value ≤ d.truncated * one) := by
  have h1 := one_pos
  have hq := Int.tdiv_mul_add_tmod d.value one
  unfold truncated
  rcases Int.lt_or_le d.value 0 with h | h
  · have hr := Int.tmod_nonneg (a := -d.value) one (by omega)
    have hl := Int.tmod_lt_of_pos (-d.value) h1
    rw [Int.neg_tmod] at hr hl
    exact .inr ⟨h, by omega, by omega⟩
  · have hr := Int.tmod_nonneg one h
    have hl := Int.tmod_lt_of_pos d.value h1
    exact .inl ⟨h, by omega, by omega⟩

theorem isIntegral_iff {d : Double} : d.isIntegral = true ↔ ∃ i : Int, d.value = i * one := by
  have hdvd : (one : Int) ∣ d.value ↔ one ∣ d.units := by
    rw [← natAbs_value, Int.ofNat_dvd_left]
  rw [isIntegral, beq_iff_eq, ← Nat.dvd_iff_mod_eq_zero, ← hdvd]
  constructor
  · rintro ⟨i, hi⟩; exact ⟨i, by rw [hi, Int.mul_comm]⟩
  · rintro ⟨i, hi⟩; exact ⟨i, by rw [hi, Int.mul_comm]⟩

theorem toInt?_eq_some {d : Double} {i : Int} :
    d.toInt? = some i ↔ d.value = i * one ∧ i.natAbs < twoPow 64 := by
  have h1 := one_pos
  have small : d.value = i * one → (d.units < twoPow 64 * one ↔ i.natAbs < twoPow 64) := by
    intro h
    rw [← natAbs_value, h, Int.natAbs_mul, Int.natAbs_natCast]
    exact Nat.mul_lt_mul_right (twoPow_pos 1074)
  unfold toInt?
  constructor
  · intro h
    split at h
    · next hc =>
      obtain ⟨j, hj⟩ := isIntegral_iff.1 hc.1
      rw [hj, Int.mul_ediv_cancel _ (by omega)] at h
      cases h
      exact ⟨hj, (small hj).1 hc.2⟩
    · cases h
  · rintro ⟨hv, hi⟩
    rw [if_pos ⟨isIntegral_iff.2 ⟨i, hv⟩, (small hv).2 hi⟩, hv, Int.mul_ediv_cancel _ (by omega)]

end Double

namespace Number

open Double (one one_pos twoPow)

theorem natAbs_lt {i : Int} (h : -0x8000000000000000 ≤ i ∧ i < 0x10000000000000000) :
    i.natAbs < twoPow 64 := by
  rw [Double.twoPow_64]; omega

theorem compareInt_eq {i : Int} (hi : i.natAbs < twoPow 64) (d : Double) :
    compareInt i d = Ord.compare (i * one) d.value := by
  have h1 := one_pos
  have hlo : -(twoPow 64 : Int) * one < i * one := Int.mul_lt_mul_of_pos_right (by omega) h1
  have hhi : i * one < (twoPow 64 : Int) * one := Int.mul_lt_mul_of_pos_right (by omega) h1
  rw [Int.neg_mul] at hlo
  simp only [compareInt]
  split
  · exact (Int.compare_eq_lt.2 (by omega)).symm
  split
  · exact (Int.compare_eq_gt.2 (by omega)).symm
  have ht := d.truncated_bounds
  -- on either side of the cut off value the next integer is a whole one away
  rcases Int.lt_trichotomy i d.truncated with h | h | h
  · have := Int.mul_le_mul_of_nonneg_right (show i + 1 ≤ d.truncated by omega) (Int.le_of_lt h1)
    rw [Int.add_mul, Int.one_mul] at this
    rw [Int.compare_eq_lt.2 h, Int.compare_eq_lt.2 (show i * one < d.value by omega)]
  · rw [h, Int.compare_eq_eq.2 rfl]
  · have := Int.mul_le_mul_of_nonneg_right (show d.truncated + 1 ≤ i by omega) (Int.le_of_lt h1)
    rw [Int.add_mul, Int.one_mul] at this
    rw [Int.compare_eq_gt.2 h, Int.compare_eq_gt.2 (show d.value < i * one by omega)]

/-- Numbers are compared by their exact values. -/
theorem compare_eq (a b : Number) : a.compare b = Ord.compare a.scaled b.scaled := by
  cases a with
  | int i hi =>
    cases b with
    | int j hj =>
      have h1 := one_pos
      simp only [compare, scaled]
      rcases Int.lt_trichotomy i j with h | h | h
      · rw [Int.compare_eq_lt.2 h, Int.compare_eq_lt.2 (Int.mul_lt_mul_of_pos_right h h1)]
      · rw [h, Int.compare_eq_eq.2 rfl, Int.compare_eq_eq.2 rfl]
      · rw [Int.compare_eq_gt.2 h, Int.compare_eq_gt.2 (Int.mul_lt_mul_of_pos_right h h1)]
    | float y => exact compareInt_eq (natAbs_lt hi) y
  | float x =>
    cases b with
    | int j hj =>
      simp only [compare, scaled, compareInt_eq (natAbs_lt hj)]
      exact (Int.compare_swap _ _)
    | float y => rfl

theorem compare_eq_eq {a b : Number} : a.compare b = .eq ↔ a.scaled = b.scaled := by
  rw [compare_eq, Int.compare_eq_eq]

theorem isIntegral_iff {n : Number} : n.isIntegral = true ↔ ∃ i : Int, n.scaled = i * one := by
  cases n with
  | int i _ => exact ⟨fun _ => ⟨i, rfl⟩, fun _ => rfl⟩
  | float d => exact Double.isIntegral_iff

theorem toInt?_eq_some {n : Number} {i : Int} :
    n.toInt? = some i ↔ n.scaled = i * one ∧ i.natAbs < twoPow 64 := by
  cases n with
  | int j hj =>
    simp only [toInt?, scaled, Option.some.injEq]
    constructor
    · rintro rfl; exact ⟨rfl, natAbs_lt hj⟩
    · rintro ⟨h, -⟩; exact Int.eq_of_mul_eq_mul_right (by have := one_pos; omega) h
  | float d => exact Double.toInt?_eq_some

/-- The integer that a number stands for does not depend on how the number is written. -/
theorem toInt?_congr {a b : Number} (h : a.scaled = b.scaled) : a.toInt? = b.toInt? := by
  apply Option.ext
  intro i
  rw [toInt?_eq_some, toInt?_eq_some, h]

/-- A size is the whole value, and the largest one stands for `2^64` too. -/
theorem toSize?_eq_some {n : Number} {size : Nat} :
    n.toSize? = some size ↔ ∃ i : Nat, n.scaled = (i : Int) * one ∧ i ≤ twoPow 64 ∧
      size = min i 0xFFFFFFFFFFFFFFFF := by
  have h1 := one_pos
  have hone : 0 < one := Double.twoPow_pos 1074
  cases n with
  | int j hj =>
    simp only [toSize?, scaled, Option.ite_none_right_eq_some, Option.some.injEq]
    constructor
    · rintro ⟨h0, rfl⟩
      refine ⟨j.toNat, by rw [Int.toNat_of_nonneg h0], ?_, ?_⟩
      · rw [Double.twoPow_64]; omega
      · omega
    · rintro ⟨i, hi, -, rfl⟩
      obtain rfl : j = i := Int.eq_of_mul_eq_mul_right (by omega) hi
      exact ⟨by omega, by omega⟩
  | float d =>
    have units : ∀ {i : Nat}, d.value = (i : Int) * one → d.units = i * one := by
      intro i hi
      rw [← Double.natAbs_value, hi, Int.natAbs_mul, Int.natAbs_natCast, Int.natAbs_natCast]
    simp only [toSize?, scaled, Option.ite_none_right_eq_some, Option.some.injEq]
    constructor
    · rintro ⟨⟨hint, h0, hle⟩, rfl⟩
      obtain ⟨j, hj⟩ := Double.isIntegral_iff.1 hint
      have hj0 : 0 ≤ j := by
        rw [hj] at h0
        exact Int.nonneg_of_mul_nonneg_left h0 h1
      obtain ⟨i, rfl⟩ := Int.eq_ofNat_of_zero_le hj0
      rw [units hj] at hle ⊢
      exact ⟨i, hj, Nat.le_of_mul_le_mul_right hle hone, by rw [Nat.mul_div_cancel _ hone]⟩
    · rintro ⟨i, hi, hle, rfl⟩
      have h0 : (0 : Int) ≤ i * one := Int.mul_nonneg (Int.natCast_nonneg i) (Int.le_of_lt h1)
      rw [units hi, Nat.mul_div_cancel _ hone, hi]
      exact ⟨⟨Double.isIntegral_iff.2 ⟨i, hi⟩, h0, Nat.mul_le_mul_right _ hle⟩, rfl⟩

theorem toSize?_congr {a b : Number} (h : a.scaled = b.scaled) : a.toSize? = b.toSize? := by
  apply Option.ext
  intro size
  rw [toSize?_eq_some, toSize?_eq_some, h]

end Number

end JsonRules
