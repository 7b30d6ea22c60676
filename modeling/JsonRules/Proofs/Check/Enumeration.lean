import JsonRules.Proofs.Check
import JsonRules.Rule.Accept

/-!
# Enumerations

An enumeration keeps the values that it is given under their keys, and of those that share a key the
first one. Since only equal values share a key, it keeps one value out of each class of equal ones,
in the order of the first of each, and it accepts what equals one of the values that it was given.
-/

namespace JsonRules

namespace Value

/-- The values that equal none before them, in their order. -/
def distinct (values : List Value) : List Value :=
  values.zipIdx.filterMap fun (v, i) =>
    if (values.take i).any fun w => w.equal v then none else some v

theorem mem_of_mem_distinct {values : List Value} {v : Value} (h : v ∈ distinct values) :
    v ∈ values := by
  obtain ⟨m, hm, heq⟩ := List.mem_filterMap.1 h
  obtain ⟨-, heq⟩ := Option.ite_none_left_eq_some.1 heq
  rw [← Option.some.inj heq]
  exact List.fst_mem_of_mem_zipIdx hm

def listed (values : List Value) : List Value := values.filter fun v => !v.isNull

end Value

/-- The entry of the value at a place, unless one before it has the same key. -/
def entryAt? (values : List Value) (v : Value) (i : Nat) : Option (String × Value) :=
  if (values.take i).any fun w => w.key == v.key then none else some (v.key, v)

/-- The entries of values that follow the values `done`: those whose keys are not entered yet. -/
theorem filter_keyed (rest done : List Value) :
    ((keyed rest).filter fun entry => !done.any fun w => w.key == entry.1) =
      (rest.zipIdx done.length).filterMap fun (v, i) => entryAt? (done ++ rest) v i := by
  induction rest generalizing done with
  | nil => rfl
  | cons v rest ih =>
    have hboth : (((keyed rest).filter fun entry => entry.1 != v.key).filter
        fun entry => !done.any fun w => w.key == entry.1) =
          (keyed rest).filter fun entry => !(done ++ [v]).any fun w => w.key == entry.1 := by
      rw [List.filter_filter]
      refine List.filter_congr fun entry _ => ?_
      rw [List.any_append, Bool.not_or, List.any_cons, List.any_nil, Bool.or_false, bne, BEq.comm]
    have hhead : entryAt? (done ++ v :: rest) v done.length =
        if done.any fun w => w.key == v.key then none else some (v.key, v) := by
      rw [entryAt?, List.take_left]
    have htail := ih (done ++ [v])
    rw [List.length_append, List.length_singleton, List.append_assoc,
      List.singleton_append] at htail
    rw [keyed, List.filter_cons, hboth, htail, List.zipIdx_cons, List.filterMap_cons]
    simp only [hhead]
    cases done.any fun w => w.key == v.key <;> rfl

/-- The entries are those of the values that equal none before them. -/
theorem keyed_eq {values : List Value} (h : ∀ v ∈ values, v.Ordered) :
    keyed values = (Value.distinct values).map fun v => (v.key, v) := by
  have hall : ((keyed values).filter
      fun entry => !([] : List Value).any fun w => w.key == entry.1) = keyed values :=
    List.filter_eq_self.2 fun _ _ => rfl
  rw [← hall, filter_keyed values [], Value.distinct, List.map_filterMap]
  refine List.filterMap_congr fun m hm => ?_
  obtain ⟨v, i⟩ := m
  have hv := h v (List.fst_mem_of_mem_zipIdx hm)
  have hany : ((values.take i).any fun w => w.key == v.key) =
      (values.take i).any fun w => w.equal v :=
    any_congr_mem fun w hw => by
      rw [Bool.eq_iff_iff, beq_iff_eq, Value.key_eq_iff (h w (List.mem_of_mem_take hw)) hv]
  simp only [entryAt?, List.nil_append, hany]
  split <;> rfl

/-- There is one entry under the key of each value, and none under any other. -/
theorem countP_keyed (values : List Value) (key : String) :
    ((keyed values).countP fun entry => entry.1 == key) =
      if values.any fun v => v.key == key then 1 else 0 := by
  induction values with
  | nil => rfl
  | cons v rest ih =>
    rw [keyed, List.countP_cons, List.countP_filter, List.any_cons]
    by_cases hv : v.key = key
    · have hnone : ((keyed rest).countP fun entry => entry.1 == key && entry.1 != v.key) = 0 := by
        rw [List.countP_eq_zero]
        intro entry _
        simp [hv]
      rw [hnone, beq_iff_eq.2 hv]
      rfl
    · have hall : ((keyed rest).countP fun entry => entry.1 == key && entry.1 != v.key) =
          (keyed rest).countP fun entry => entry.1 == key := by
        refine List.countP_congr fun entry _ => ?_
        simp only [Bool.and_eq_true, beq_iff_eq, bne_iff_ne, and_iff_left_iff_imp]
        exact fun hkey heq => hv (heq.symm.trans hkey)
      rw [hall, ih, beq_false_of_ne hv]
      simp

namespace Check

/-- Each class of equal values has one entry. -/
theorem countP_equal {values : List Value} (h : ∀ v ∈ values, v.Ordered) {u : Value}
    (hu : u.Ordered) : ((keyed values).countP fun entry => entry.2.equal u) =
      if values.any fun v => v.equal u then 1 else 0 := by
  have hany : (values.any fun v => v.equal u) = values.any fun v => v.key == u.key :=
    any_congr_mem fun v hv => by
      rw [Bool.eq_iff_iff, beq_iff_eq, Value.key_eq_iff (h v hv) hu]
  rw [hany, ← countP_keyed, keyed_eq h]
  refine List.countP_congr fun entry hentry => ?_
  obtain ⟨v, hv, rfl⟩ := List.mem_map.1 hentry
  rw [beq_iff_eq, Value.key_eq_iff (h v (Value.mem_of_mem_distinct hv)) hu]

theorem holds_enumeration {values : List Value} (h : ∀ w ∈ values, w.Ordered) {v : Value}
    (hv : v.Ordered) : (enumeration values).Holds v ↔ ∃ u ∈ values, u.equal v = true := by
  rw [Holds, violation?_enumeration h hv, ← List.any_eq_true]
  cases values.any fun w => w.equal v <;> simp

theorem holds_const {literal v : Value} : (const literal).Holds v ↔ literal.equal v = true := by
  rw [Holds, violation?]
  cases literal.equal v <;> simp

/-- An enumeration accepts what equals one of its values. Of those that are not null it keeps the
first one of each class of equal ones, in their order, and with a single value it accepts what the
check against that value accepts. -/
theorem enumeration_holds_iff (values : List Json) :
    (∀ v : Json, (enumeration values.unattach).Holds v.1 ↔ ∃ u ∈ values, u.1.equal v.1 = true) ∧
    (∃ allowed,
      enumeration values.unattach = enum allowed (values.unattach.any Value.isNull) ∧
      allowed = (Value.distinct (Value.listed values.unattach)).map (fun u => (u.key, u)) ∧
      ∀ u : Json, (allowed.countP fun entry => entry.2.equal u.1) =
        if (Value.listed values.unattach).any fun v => v.equal u.1 then 1 else 0) ∧
    ∀ literal v : Json, (enumeration [literal.1]).Holds v.1 ↔ (const literal.1).Holds v.1 := by
  have hordered : ∀ v ∈ values.unattach, v.Ordered := fun _ => Value.ordered_of_mem_unattach
  have hlisted : ∀ v ∈ Value.listed values.unattach, v.Ordered :=
    fun v hv => hordered v (List.mem_of_mem_filter hv)
  refine ⟨fun v => ?_, ⟨_, rfl, keyed_eq hlisted, fun u => countP_equal hlisted u.2⟩,
    fun literal v => ?_⟩
  · rw [holds_enumeration hordered v.2]
    simp
  · rw [holds_enumeration (List.forall_mem_singleton.2 literal.2) v.2, holds_const]
    simp

end Check

end JsonRules
