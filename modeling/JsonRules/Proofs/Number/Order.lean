import JsonRules.Proofs.Number.Exact
import JsonRules.Rule.Accept
import Mathlib.Algebra.Order.Field.Rat
import Mathlib.Algebra.Order.Ring.Cast
import Mathlib.Order.Compare

/-!
# The order of exact values

`Number.exact` is the rational number that a number stands for, whichever way it is written. It is
`Number.scaled` over the number of units in one, so that what is known of units holds of rational
numbers: the order of two numbers, which of them are whole, and the borders of a range.
-/

namespace JsonRules

namespace Number

open Double (one one_pos)

def exact : Number → ℚ
  | int i _ => i
  | float d => d.value / (one : ℚ)

theorem one_pos_rat : (0 : ℚ) < one := Nat.cast_pos.2 (Double.twoPow_pos 1074)

theorem exact_eq (n : Number) : n.exact = n.scaled / (one : ℚ) := by
  cases n with
  | int i hi =>
    have hne : (one : ℚ) ≠ 0 := ne_of_gt one_pos_rat
    rw [exact, scaled, Int.cast_mul, Int.cast_natCast, mul_div_cancel_right₀ _ hne]
  | float d => rfl

theorem exact_lt_iff {a b : Number} : a.exact < b.exact ↔ a.scaled < b.scaled := by
  rw [exact_eq, exact_eq, div_lt_div_iff_of_pos_right one_pos_rat, Int.cast_lt]

theorem exact_eq_intCast {n : Number} {i : ℤ} : n.exact = i ↔ n.scaled = i * one := by
  rw [exact_eq, div_eq_iff (ne_of_gt one_pos_rat)]
  norm_cast

/-- Numbers are compared by their exact values. -/
theorem compare_eq_exact (a b : Number) : a.compare b = Ord.compare a.exact b.exact := by
  rw [compare_eq]
  rcases lt_trichotomy a.scaled b.scaled with h | h | h
  · rw [Int.compare_eq_lt.2 h, compare_lt_iff_lt.2 (exact_lt_iff.2 h)]
  · rw [h, Int.compare_eq_eq.2 rfl, exact_eq, exact_eq, h, compare_eq_iff_eq.2 rfl]
  · rw [Int.compare_eq_gt.2 h, compare_gt_iff_gt.2 (exact_lt_iff.2 h)]

/-- The order of numbers is total and transitive, and turns around with its arguments. -/
theorem transCmp_compare : Std.TransCmp compare where
  eq_swap {a b} := by
    rw [compare_eq, compare_eq]
    exact Std.OrientedCmp.eq_swap
  isLE_trans {a b c} hab hbc := by
    rw [compare_eq] at *
    exact Std.TransCmp.isLE_trans hab hbc

theorem holds_range {bound : RangeBound} {border n : Number} :
    (Check.range bound border).Holds (.num n) ↔ bound.admits (n.compare border) = true := by
  simp only [Check.Holds, Check.violation?, ite_eq_left_iff, reduceCtorEq, imp_false, not_not]

/-- Comparison is that of exact values and so a total preorder; a number is whole if its exact value
is, and its integer is that value; a range accepts a number by the order of the exact values. -/
theorem exact_order :
    (∀ a b : Number, a.compare b = Ord.compare a.exact b.exact) ∧
      Std.TransCmp compare ∧
      (∀ n : Number, n.isIntegral = true ↔ ∃ i : ℤ, n.exact = i) ∧
      (∀ (n : Number) (i : ℤ),
        n.toInt? = some i ↔ n.exact = i ∧ i.natAbs < 0x10000000000000000) ∧
      ∀ border n : Number,
        ((Check.range .minimum border).Holds (.num n) ↔ border.exact ≤ n.exact) ∧
        ((Check.range .minimumExclusive border).Holds (.num n) ↔ border.exact < n.exact) ∧
        ((Check.range .maximum border).Holds (.num n) ↔ n.exact ≤ border.exact) ∧
        ((Check.range .maximumExclusive border).Holds (.num n) ↔ n.exact < border.exact) := by
  refine ⟨compare_eq_exact, transCmp_compare, fun n => ?_, fun n i => ?_, fun border n => ?_⟩
  · rw [isIntegral_iff]
    exact exists_congr fun i => exact_eq_intCast.symm
  · rw [toInt?_eq_some, exact_eq_intCast, Double.twoPow_64]
  · simp only [holds_range, compare_eq_exact]
    refine ⟨?_, ?_, ?_, ?_⟩
    · rw [RangeBound.admits, bne_iff_ne, Ne, compare_lt_iff_lt, not_lt]
    · rw [RangeBound.admits, beq_iff_eq, compare_gt_iff_gt]
    · rw [RangeBound.admits, bne_iff_ne, Ne, compare_gt_iff_gt, not_lt]
    · rw [RangeBound.admits, beq_iff_eq, compare_lt_iff_lt]

end Number

end JsonRules
