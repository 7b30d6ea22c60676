import JsonRules.Proofs.Number.Multiple
import JsonRules.Proofs.Schema.Derivation

/-!
# Sizes in a schema

The keywords that take a size, and which sizes their numbers are read as. A number that is whole, not
negative and below `2^64` is read as itself, however it is written. So is no other number but `2^64`,
which is read as the largest size.
-/

namespace JsonRules

def Number.IsWhole (n : Number) (i : Nat) : Prop := n.scaled = (i : Int) * Double.one

def maxSize : Nat := 0xFFFFFFFFFFFFFFFF

/-- The size that a number is read as: its value or, for the first number that is too large, the
largest size. -/
def Number.ReadAs (n : Number) (size : Nat) : Prop :=
  (n.IsWhole size ∧ size ≤ maxSize) ∨ (n.IsWhole (maxSize + 1) ∧ size = maxSize)

theorem Number.toSize?_eq_some_iff {n : Number} {size : Nat} :
    n.toSize? = some size ↔ n.ReadAs size := by
  rw [toSize?_eq_some, Double.twoPow_64]
  unfold ReadAs maxSize
  constructor
  · rintro ⟨i, hi, hle, rfl⟩
    by_cases hmax : i ≤ 0xFFFFFFFFFFFFFFFF
    · rw [Nat.min_eq_left hmax]
      exact .inl ⟨hi, hmax⟩
    · obtain rfl : i = 0x10000000000000000 := by omega
      exact .inr ⟨hi, rfl⟩
  · rintro (⟨hi, hle⟩ | ⟨hi, rfl⟩)
    · exact ⟨size, hi, by omega, by omega⟩
    · exact ⟨0x10000000000000000, hi, by omega, rfl⟩

namespace Keyword

/-- The check that a keyword makes of a size, if it takes one. -/
def sized? : Keyword → Option (Nat → Check)
  | multipleOf => some .multipleOf
  | length bound => some (.length bound)
  | arraySize bound => some (.arraySize bound)
  | _ => none

def leastSize : Keyword → Nat
  | multipleOf => 1
  | _ => 0

end Keyword

namespace Schema

variable {n : Number}

theorem size?_num : size? (.num n) = n.toSize? := rfl

/-- The check of a keyword that takes a size has the size that its number is read as. -/
theorem valueRule_sized {k : Keyword} {sized : Nat → Check} (hk : k.sized? = some sized)
    (limits : PatternLimits) (compile : SubCompiler) (path : SchemaPath) (fields : Fields)
    (rule? : Option Rule) : valueRule limits compile path fields (.num n) k = .ok rule? ↔
      ∃ size, n.toSize? = some size ∧ k.leastSize ≤ size ∧
        rule? = some (.check (path.key k) (sized size)) := by
  cases k with
  | multipleOf =>
    cases hk
    rw [valueRule, multipleOfCheck, size?_num]
    -- a size of zero is the one that only this keyword refuses
    rcases n.toSize? with - | (- | size) <;> simp [checkRule, Keyword.leastSize, eq_comm]
  | length bound =>
    cases hk
    rw [valueRule, lengthCheck, size?_num]
    rcases n.toSize? with - | size <;> simp [checkRule, Keyword.leastSize, eq_comm]
  | arraySize bound =>
    cases hk
    rw [valueRule, arraySizeCheck, size?_num]
    rcases n.toSize? with - | size <;> simp [checkRule, Keyword.leastSize, eq_comm]
  | _ => cases hk

/-- A keyword that takes a size compiles for the whole numbers from its least size to the largest one,
to a check with the number itself, and for `2^64`, to a check with the largest size. -/
theorem keywordRule_sized_iff {k : Keyword} {sized : Nat → Check} (hk : k.sized? = some sized)
    {fields : Fields} (hn : Fields.get? k.name fields = some (.num n)) (limits : PatternLimits)
    (compile : SubCompiler) (path : SchemaPath) (rule? : Option Rule) :
    keywordRule limits compile path fields k = .ok rule? ↔
      ∃ size, n.ReadAs size ∧ k.leastSize ≤ size ∧
        rule? = some (.check (path.key k) (sized size)) := by
  rw [keywordRule_of_some hn]
  simp only [valueRule_sized hk, Number.toSize?_eq_some_iff]

theorem keywordRule_sized_three : Keyword.multipleOf.sized? = some .multipleOf ∧
    ∀ limits compile path, keywordRule limits compile path
      [("multipleOf", .num (.int 3 (by decide)))] .multipleOf =
        .ok (some (.check (path.key .multipleOf) (.multipleOf 3))) := by
  refine ⟨rfl, fun limits compile path => ?_⟩
  have hread : Number.ReadAs (.int 3 (by decide)) 3 := .inl ⟨rfl, by decide⟩
  exact (keywordRule_sized_iff rfl rfl limits compile path _).2 ⟨3, hread, by decide, rfl⟩

/-- A least length of `2^64` is accepted, and becomes another one. -/
theorem keywordRule_beyondInt :
    Number.ofInteger false 0x10000000000000000 = some Number.beyondInt ∧
      (∀ i ≤ maxSize, ¬ Number.beyondInt.IsWhole i) ∧
    ∀ limits compile path, keywordRule limits compile path [("minLength", .num Number.beyondInt)]
      (.length .least) =
        .ok (some (.check (path.key (.length .least)) (.length .least maxSize))) := by
  refine ⟨Number.ofInteger_beyondInt, ?_, ?_⟩
  · intro i hle hi
    unfold Number.IsWhole at hi
    rw [Number.scaled_beyondInt] at hi
    have hquot := Int.eq_of_mul_eq_mul_right (by have := Double.one_pos; omega) hi
    unfold maxSize at hle
    omega
  · intro limits compile path
    have hsize : Number.beyondInt.toSize? = some maxSize := by decide +kernel
    have hn : Fields.get? (Keyword.length .least).name [("minLength", .num Number.beyondInt)] =
        some (.num Number.beyondInt) := rfl
    rw [keywordRule_of_some hn]
    exact (valueRule_sized rfl limits compile path _ _).2 ⟨maxSize, hsize, Nat.zero_le _, rfl⟩

end Schema

end JsonRules
