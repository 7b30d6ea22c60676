import JsonRules.Proofs.Search
import JsonRules.Proofs.Value.Key
import JsonRules.Schema.Interpret

/-!
# Checks by equality

Enumerations and the search for repeated items go by canonical keys, ranges by the order of two
numbers. On ordered values they say what their keywords say: a value equals one of those listed,
two items are equal, a number lies on one side of a border.
-/

namespace JsonRules

theorem RangeBound.admits_compare (bound : RangeBound) (border n : Number) :
    bound.admits (n.compare border) = bound.holds border n := by
  rw [Number.compare_eq]
  rcases Int.lt_trichotomy n.scaled border.scaled with h | h | h
  · have hle := Int.not_le.2 h
    have hlt := Int.not_lt.2 (Int.le_of_lt h)
    rw [Int.compare_eq_lt.2 h]
    cases bound <;> simp [admits, holds, h, hle, hlt, Int.le_of_lt h]
  · rw [h, Int.compare_eq_eq.2 rfl]
    cases bound <;> simp [admits, holds, h]
  · have hle := Int.not_le.2 h
    have hlt := Int.not_lt.2 (Int.le_of_lt h)
    rw [Int.compare_eq_gt.2 h]
    cases bound <;> simp [admits, holds, h, hle, hlt, Int.le_of_lt h]

/-- What is known of the items before a place: the first place of each. -/
theorem firstRepeatAfter?_eq {α : Type} [DecidableEq α] (rest : List α) :
    ∀ (seen : List (α × Nat)) (done : List α), (∀ x, seen.lookup x = done.findIdx? (· = x)) →
      firstRepeatAfter? seen done.length rest =
        (rest.zipIdx done.length).findSome? fun (x, j) =>
          (((done ++ rest).take j).findIdx? (· = x)).map fun i => (i, j) := by
  induction rest with
  | nil => exact fun _ _ _ => rfl
  | cons x rest ih =>
    intro seen done hseen
    rw [firstRepeatAfter?, List.zipIdx_cons, List.findSome?_cons, hseen]
    simp only [List.take_left]
    cases hx : done.findIdx? (· = x) with
    | some i => rfl
    | none =>
      have hdone : done.length + 1 = (done ++ [x]).length := by simp
      simp only [Option.map_none]
      rw [hdone, ih ((x, done.length) :: seen) (done ++ [x]) ?_, List.append_assoc,
        List.singleton_append]
      intro y
      rw [List.lookup_cons, List.findIdx?_append, hseen]
      by_cases hy : y = x
      · subst hy; simp [hx]
      · simp [beq_eq_false_iff_ne.2 hy, Ne.symm hy]

theorem firstRepeat?_eq {α : Type} [DecidableEq α] (items : List α) :
    firstRepeat? items = items.zipIdx.findSome? fun (x, j) =>
      ((items.take j).findIdx? (· = x)).map fun i => (i, j) :=
  firstRepeatAfter?_eq items [] [] fun _ => rfl

theorem keyed_any (values : List Value) (key : String) :
    ((keyed values).any fun entry => entry.1 == key) = values.any fun v => v.key == key := by
  induction values with
  | nil => rfl
  | cons v rest ih =>
    rw [keyed, List.any_cons, List.any_cons, List.any_filter]
    by_cases hk : v.key = key
    · simp [hk]
    · rw [← ih]
      congr 2
      funext entry
      by_cases he : entry.1 = key
      · simp [he, Ne.symm hk]
      · simp [he]

namespace Value

theorem isNull_iff {v : Value} : v.isNull = true ↔ v = null := by
  cases v <;> simp [isNull]

theorem equal_null {v : Value} : v.equal null = true ↔ v = null := by
  cases v <;> simp [equal]

theorem null_equal {v : Value} : null.equal v = true ↔ v = null := by
  cases v <;> simp [equal]

/-- Repeated keys are repeated items. -/
theorem firstRepeat?_key {items : List Value} (h : ∀ v ∈ items, v.Ordered) :
    firstRepeat? (items.map key) = firstEqual? items := by
  rw [firstRepeat?_eq, firstEqual?, List.zipIdx_map, List.findSome?_map]
  refine findSome?_congr fun m hm => ?_
  obtain ⟨v, j⟩ := m
  have hv : v.Ordered := h v (List.fst_mem_of_mem_zipIdx hm)
  simp only [Function.comp_apply, Prod.map_apply, id_eq, ← List.map_take, List.findIdx?_map]
  congr 1
  refine findIdx?_congr fun w hw => ?_
  rw [Function.comp_apply, Bool.eq_iff_iff, decide_eq_true_iff, eq_comm,
    key_eq_iff hv (h w (List.mem_of_mem_take hw))]

end Value

namespace Check

/-- An enumeration admits what equals one of its values. -/
theorem violation?_enumeration {values : List Value} (h : ∀ w ∈ values, w.Ordered) {v : Value}
    (hv : v.Ordered) : (enumeration values).violation? v =
      if values.any fun w => w.equal v then none else some .notListed := by
  by_cases hnull : v = .null
  · subst hnull
    have hany : (values.any fun w => w.equal .null) = values.any Value.isNull :=
      any_congr_mem fun w _ => by
        rw [Bool.eq_iff_iff, Value.equal_null, Value.isNull_iff]
    rw [hany]
    rfl
  · have hany : ((keyed (values.filter fun w => !w.isNull)).any fun entry => entry.1 == v.key) =
        values.any fun w => w.equal v := by
      rw [keyed_any, List.any_filter]
      refine any_congr_mem fun w hw => ?_
      rw [Bool.eq_iff_iff, Bool.and_eq_true, beq_iff_eq, Value.key_eq_iff (h w hw) hv]
      refine and_iff_right_of_imp fun heq => ?_
      cases hw0 : w.isNull with
      | false => rfl
      | true =>
        rw [Value.isNull_iff.1 hw0, Value.null_equal] at heq
        exact absurd heq hnull
    rw [← hany]
    cases v <;> first | rfl | exact absurd rfl hnull

end Check

end JsonRules
