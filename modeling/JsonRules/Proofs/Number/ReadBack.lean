import JsonRules.Number.Decimal
import Mathlib.Algebra.Group.Nat.Even
import Mathlib.Tactic.Ring

/-!
# Decimals read back

Reading a decimal rounds the quotient `digits * 10 ^ exponent` once: the two short cuts of
`Double.ofDecimal` for far exponents change nothing. So a zero at the end of the digits can be
moved into the exponent, and the shortest decimal of a double, whose zeros are moved that way,
reads back as the double.
-/

namespace JsonRules

theorem roundDiv_mul_left {k : Nat} (hk : 0 < k) (num den : Nat) :
    roundDiv (k * num) (k * den) = roundDiv num den := by
  unfold roundDiv
  simp only [Nat.mul_div_mul_left _ _ hk, Nat.mul_mod_mul_left, Nat.mul_left_comm 2 k,
    Nat.mul_lt_mul_left hk]

theorem div_le_roundDiv (num den : Nat) : num / den ≤ roundDiv num den := by
  unfold roundDiv
  simp only
  split
  · exact Nat.le_refl _
  · split <;> omega

theorem roundDiv_mul_self {den : Nat} (hd : 0 < den) (q : Nat) : roundDiv (q * den) den = q := by
  unfold roundDiv
  simp only [Nat.mul_mod_left, Nat.mul_div_cancel _ hd]
  rw [if_pos (by omega)]

theorem roundDiv_eq_zero {num den : Nat} (h : 2 * num < den) : roundDiv num den = 0 := by
  unfold roundDiv
  rw [Nat.mod_eq_of_lt (by omega), Nat.div_eq_of_lt (by omega), if_pos h]

namespace Double

theorem twoPow_eq (n : Nat) : twoPow n = 2 ^ n := rfl

theorem twoPow_le {m n : Nat} (h : m ≤ n) : twoPow m ≤ 2 ^ n := Nat.pow_le_pow_right (by omega) h

theorem le_log2_of_twoPow_le {m n : Nat} (h : twoPow m ≤ n) : m ≤ n.log2 :=
  (Nat.le_log2 (by have := twoPow_pos m; omega)).2 h

theorem overflow_le {n : Nat} (h : 2098 ≤ n) : overflow ≤ 2 ^ n := twoPow_le h

theorem spacing_pos (units : Nat) : 0 < spacing units := twoPow_pos _

theorem ofUnits?_units (x : Double) : ofUnits? x.negative x.units = some x := by
  rw [ofUnits?, dif_pos x.representable]

theorem ofUnits?_zero (negative : Bool) : ofUnits? negative 0 = some (zero negative) := by
  rw [ofUnits?, dif_pos representable_zero]; rfl

theorem ofRatio_mul_left {k : Nat} (hk : 0 < k) (negative : Bool) (num den : Nat) :
    ofRatio negative (k * num) (k * den) = ofRatio negative num den := by
  simp only [ofRatio, Nat.mul_div_mul_left _ _ hk, Nat.mul_assoc, roundDiv_mul_left hk]

/-- Less than half a unit is rounded to zero. -/
theorem ofRatio_eq_zero {num den : Nat} (h : 2 * num < den) (negative : Bool) :
    ofRatio negative num den = some (zero negative) := by
  simp only [ofRatio, Nat.div_eq_of_lt (show num < den by omega)]
  have hs : 2 * num < den * spacing 0 :=
    Nat.lt_of_lt_of_le h (Nat.le_mul_of_pos_right _ (spacing_pos 0))
  rw [roundDiv_eq_zero hs, Nat.zero_mul, ofUnits?_zero]

/-- A quotient beyond the finite doubles is not rounded into them. -/
theorem ofRatio_eq_none {num den : Nat} (h : overflow ≤ num / den) (negative : Bool) :
    ofRatio negative num den = none := by
  have hq : num / den ≠ 0 := by have := twoPow_pos 2098; unfold overflow at h; omega
  have hlog : 2098 ≤ (num / den).log2 := le_log2_of_twoPow_le h
  have hstep : 2 ^ (num / den).log2 = 2 ^ 52 * spacing (num / den) := by
    rw [spacing, twoPow_eq, ← Nat.pow_add]; congr 1; omega
  have hlow : 2 ^ 52 ≤ num / (den * spacing (num / den)) := by
    rw [← Nat.div_div_eq_div_mul, Nat.le_div_iff_mul_le (spacing_pos _), ← hstep]
    exact Nat.log2_self_le hq
  have hbig : overflow ≤ roundDiv num (den * spacing (num / den)) * spacing (num / den) :=
    calc overflow ≤ 2 ^ (num / den).log2 := overflow_le hlog
      _ = 2 ^ 52 * spacing (num / den) := hstep
      _ ≤ _ := Nat.mul_le_mul_right _ (hlow.trans (div_le_roundDiv _ _))
  rw [ofRatio, ofUnits?, dif_neg]
  intro hr
  exact absurd hr.2 (Nat.not_lt.2 hbig)

theorem ofRatio_units (x : Double) : ofRatio x.negative x.units 1 = some x := by
  have hr : roundDiv x.units (spacing x.units) * spacing x.units = x.units := by
    have hq := Nat.div_mul_cancel x.representable.1
    have hround := roundDiv_mul_self (spacing_pos x.units) (x.units / spacing x.units)
    rw [hq] at hround
    rw [hround, hq]
  simp only [ofRatio, Nat.div_one, Nat.one_mul, hr, ofUnits?_units]

theorem two_pow_le_ten_pow (n : Nat) : 2 ^ (3 * n) ≤ 10 ^ n := by
  rw [Nat.pow_mul]; exact Nat.pow_le_pow_left (by omega) n

theorem ofDecimal_ofNat (negative : Bool) (digits e : Nat) :
    ofDecimal negative digits (.ofNat e) = ofRatio negative (digits * 10 ^ e * one) 1 := by
  unfold ofDecimal
  split
  · next h => rw [h, Nat.zero_mul, Nat.zero_mul, ofRatio_eq_zero (by omega)]
  · next h =>
    simp only
    split
    · next he =>
      refine (ofRatio_eq_none ?_ negative).symm
      calc overflow ≤ 2 ^ (3 * e) * one := by
            rw [one, twoPow_eq, ← Nat.pow_add]; exact overflow_le (by omega)
        _ ≤ digits * 10 ^ e * one :=
            Nat.mul_le_mul_right _ ((two_pow_le_ten_pow e).trans
              (Nat.le_mul_of_pos_left _ (Nat.pos_of_ne_zero h)))
        _ = _ := (Nat.div_one _).symm
    · rfl

theorem ofDecimal_negSucc (negative : Bool) (digits e : Nat) :
    ofDecimal negative digits (.negSucc e) = ofRatio negative (digits * one) (10 ^ (e + 1)) := by
  unfold ofDecimal
  split
  · next h => rw [h, Nat.zero_mul, ofRatio_eq_zero (Nat.pow_pos (by omega))]
  · next h =>
    simp only
    split
    · next he =>
      refine (ofRatio_eq_zero ?_ negative).symm
      calc 2 * (digits * one) < 2 * (2 ^ (digits.log2 + 1) * one) :=
            Nat.mul_lt_mul_of_pos_left (Nat.mul_lt_mul_of_pos_right Nat.lt_log2_self (twoPow_pos _))
              (by omega)
        _ = 2 ^ (1 + (digits.log2 + 1) + 1074) := by
            rw [one, twoPow_eq, Nat.pow_add _ (1 + (digits.log2 + 1)), Nat.pow_add _ 1, Nat.pow_one,
              Nat.mul_assoc]
        _ ≤ 2 ^ (3 * (e + 1)) := Nat.pow_le_pow_right (by omega) (by omega)
        _ ≤ _ := two_pow_le_ten_pow (e + 1)
    · rfl

/-- A zero at the end of the digits is worth a power of ten. -/
theorem ofDecimal_mul_ten (negative : Bool) (digits : Nat) (exponent : Int) :
    ofDecimal negative (10 * digits) exponent = ofDecimal negative digits (exponent + 1) := by
  match exponent with
  | .ofNat e =>
    rw [show Int.ofNat e + 1 = .ofNat (e + 1) from rfl, ofDecimal_ofNat, ofDecimal_ofNat,
      Nat.pow_succ, Nat.mul_comm 10 digits, Nat.mul_assoc digits 10, Nat.mul_comm 10]
  | .negSucc 0 =>
    rw [show Int.negSucc 0 + 1 = .ofNat 0 from rfl, ofDecimal_negSucc, ofDecimal_ofNat,
      ← ofRatio_mul_left (show 0 < 10 by omega) negative (digits * 10 ^ 0 * one), Nat.pow_zero,
      Nat.mul_one, Nat.mul_one, Nat.zero_add, Nat.pow_one, Nat.mul_assoc]
  | .negSucc (e + 1) =>
    rw [show Int.negSucc (e + 1) + 1 = .negSucc e by omega, ofDecimal_negSucc, ofDecimal_negSucc,
      Nat.mul_assoc, Nat.pow_succ 10 (e + 1), Nat.mul_comm _ 10,
      ofRatio_mul_left (show 0 < 10 by omega)]

theorem ofDecimal_mul_pow (negative : Bool) (digits k : Nat) (exponent : Int) :
    ofDecimal negative (digits * 10 ^ k) exponent = ofDecimal negative digits (exponent + k) := by
  induction k generalizing exponent with
  | zero => simp
  | succ k ih =>
    rw [show digits * 10 ^ (k + 1) = 10 * (digits * 10 ^ k) by ring, ofDecimal_mul_ten, ih]
    congr 1; omega

theorem ofDecimal_normalize (negative : Bool) (fuel : Nat) (d : Decimal) :
    ofDecimal negative (d.normalize fuel).digits (d.normalize fuel).exponent =
      ofDecimal negative d.digits d.exponent := by
  induction fuel generalizing d with
  | zero => rfl
  | succ fuel ih =>
    simp only [Decimal.normalize]
    split
    · next h =>
      rw [ih, ← ofDecimal_mul_ten, Nat.mul_div_cancel' (Nat.dvd_of_mod_eq_zero h.2)]
    · rfl

theorem ofDecimal_neg (negative : Bool) (digits : Nat) {n : Nat} (hn : 0 < n) :
    ofDecimal negative digits (-(n : Int)) = ofRatio negative (digits * one) (10 ^ n) := by
  obtain ⟨e, rfl⟩ : ∃ e, n = e + 1 := ⟨n - 1, by omega⟩
  exact ofDecimal_negSucc negative digits e

theorem ofRatio_scaled (x : Double) (n : Nat) :
    ofRatio x.negative (x.units * Nat.pow 5 n * twoPow n) (10 ^ n) = some x := by
  have hten : Nat.pow 5 n * twoPow n = 10 ^ n := (Nat.mul_pow 5 2 n).symm
  have hone := ofRatio_mul_left (Nat.pow_pos (n := n) (show 0 < 10 by omega)) x.negative x.units 1
  rw [Nat.mul_assoc, hten, Nat.mul_comm]
  rwa [Nat.mul_one, ofRatio_units] at hone

theorem ofDecimal_scaled (x : Double) {n : Nat} (hn : one = twoPow n) (h0 : 0 < n) :
    ofDecimal x.negative (x.units * Nat.pow 5 n) (-(n : Int)) = some x := by
  rw [ofDecimal_neg _ _ h0, hn, ofRatio_scaled]

/-- The exact expansion reads back. -/
theorem ofDecimal_exactDecimal (x : Double) :
    ofDecimal x.negative x.exactDecimal.digits x.exactDecimal.exponent = some x := by
  unfold exactDecimal
  -- with a name for the exponent no power of this size is ever computed
  generalize hn : (1074 : Nat) = n
  have hone : one = twoPow n := hn ▸ rfl
  rw [show (-1074 : Int) = -(n : Int) by omega]
  exact ofDecimal_scaled x hone (by omega)

theorem readsFrom_of_shortened? {x : Double} {tiesUp : Bool} {total keep : Nat} {d : Decimal}
    (h : x.shortened? tiesUp total keep = some d) : x.readsFrom d = true := by
  unfold shortened? at h
  extract_lets exact drop grid low high rest upFirst first second at h
  split at h
  · next hd => exact Option.some.inj h ▸ hd
  · split at h
    · next hd => exact Option.some.inj h ▸ hd
    · cases h

theorem ofDecimal_getD_exactDecimal {x : Double} {found : Option Decimal}
    (h : ∀ d, found = some d → x.readsFrom d = true) :
    ofDecimal x.negative (found.getD x.exactDecimal).digits (found.getD x.exactDecimal).exponent =
      some x := by
  cases found with
  | none => exact ofDecimal_exactDecimal x
  | some d => exact beq_iff_eq.1 (h d rfl)

theorem shortest_eq {x : Double} (h : x.units ≠ 0) (tiesUp : Bool) :
    x.shortest tiesUp = Decimal.normalize x.exactDecimal.text.length
      (((List.range 17).findSome? fun n =>
        x.shortened? tiesUp x.exactDecimal.text.length (n + 1)).getD x.exactDecimal) := by
  rw [shortest, if_neg h]

/-- The shortest decimal of a double reads back as the double. -/
theorem ofDecimal_shortest {x : Double} (h : x.units ≠ 0) (tiesUp : Bool) :
    ofDecimal x.negative (x.shortest tiesUp).digits (x.shortest tiesUp).exponent = some x := by
  rw [shortest_eq h, ofDecimal_normalize]
  refine ofDecimal_getD_exactDecimal fun d hd => ?_
  obtain ⟨n, -, hn⟩ := List.exists_of_findSome?_eq_some hd
  exact readsFrom_of_shortened? hn

end Double

end JsonRules
