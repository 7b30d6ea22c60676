import JsonRules.Proofs.Number.Exact
import JsonRules.Value.Equal
import Mathlib.Data.List.Forall2
import Mathlib.Data.List.Perm.Subperm

/-!
# Values by their parts

Induction over values, and structural equality read as a relation between parts: two arrays are
equal when their items are, in order, and two ordered objects when their members are. An object
is compared by looking each key up in the other one; sorted members of the same number make that
the same as going through both at once.
-/

namespace JsonRules

namespace Value

mutual

/-- Induction over a value, with the parts of arrays and objects as members of their lists. -/
theorem byParts {P : Value → Prop} (null : P null) (bool : ∀ b, P (bool b)) (num : ∀ n, P (num n))
    (str : ∀ s, P (str s)) (arr : ∀ items, (∀ v ∈ items, P v) → P (arr items))
    (obj : ∀ fields : Fields, (∀ m ∈ fields, P m.2) → P (obj fields)) : ∀ v, P v
  | .null => null
  | .bool b => bool b
  | .num n => num n
  | .str s => str s
  | .arr items => arr items (itemsByParts null bool num str arr obj items)
  | .obj fields => obj fields (fieldsByParts null bool num str arr obj fields)

theorem itemsByParts {P : Value → Prop} (null : P null) (bool : ∀ b, P (bool b))
    (num : ∀ n, P (num n)) (str : ∀ s, P (str s))
    (arr : ∀ items, (∀ v ∈ items, P v) → P (arr items))
    (obj : ∀ fields : Fields, (∀ m ∈ fields, P m.2) → P (obj fields)) :
    ∀ items : List Value, ∀ v ∈ items, P v
  | [] => nofun
  | x :: rest => List.forall_mem_cons.2
      ⟨byParts null bool num str arr obj x, itemsByParts null bool num str arr obj rest⟩

theorem fieldsByParts {P : Value → Prop} (null : P null) (bool : ∀ b, P (bool b))
    (num : ∀ n, P (num n)) (str : ∀ s, P (str s))
    (arr : ∀ items, (∀ v ∈ items, P v) → P (arr items))
    (obj : ∀ fields : Fields, (∀ m ∈ fields, P m.2) → P (obj fields)) :
    ∀ fields : List (String × Value), ∀ m ∈ fields, P m.2
  | [] => nofun
  | (_, x) :: rest => List.forall_mem_cons.2
      ⟨byParts null bool num str arr obj x, fieldsByParts null bool num str arr obj rest⟩

end

/-- Induction over a value from all smaller ones. -/
theorem bySize {P : Value → Prop} (step : ∀ v, (∀ w, sizeOf w < sizeOf v → P w) → P v)
    (v : Value) : P v :=
  step v fun w _ => bySize step w
termination_by sizeOf v

theorem orderedItems_iff {items : List Value} : OrderedItems items ↔ ∀ v ∈ items, v.Ordered := by
  induction items with
  | nil => simp [OrderedItems]
  | cons x rest ih => simp [OrderedItems, ih]

theorem orderedFields_iff {fields : Fields} :
    OrderedFields fields ↔ ∀ m ∈ fields, m.2.Ordered := by
  induction fields with
  | nil => simp [OrderedFields]
  | cons m rest ih => obtain ⟨k, x⟩ := m; simp [OrderedFields, ih]

theorem ordered_arr {items : List Value} : (arr items).Ordered ↔ ∀ v ∈ items, v.Ordered := by
  rw [Ordered, orderedItems_iff]

theorem ordered_obj {fields : Fields} :
    (obj fields).Ordered ↔ Fields.Sorted fields ∧ ∀ m ∈ fields, m.2.Ordered := by
  rw [Ordered, orderedFields_iff]

theorem ordered_of_mem_unattach {values : List Json} {v : Value} (h : v ∈ values.unattach) :
    v.Ordered := by
  obtain ⟨hv, -⟩ := List.mem_unattach.1 h
  exact hv

end Value

namespace Fields

theorem Sorted.nodup {fields : Fields} (h : Sorted fields) : (fields.map Prod.fst).Nodup :=
  List.Pairwise.imp (fun h => String.ne_of_lt h) h

theorem get?_of_mem {key : String} {v : Value} {fields : Fields} (hs : Sorted fields)
    (h : (key, v) ∈ fields) : get? key fields = some v := by
  induction fields with
  | nil => cases h
  | cons m rest ih =>
    obtain ⟨k, x⟩ := m
    obtain ⟨hk, hrest⟩ := List.pairwise_cons.1 hs
    rw [get?]
    rcases List.mem_cons.1 h with h | h
    · cases h; rw [if_pos rfl]
    · rw [if_neg (String.ne_of_lt (hk key (List.mem_map_of_mem h))), ih hrest h]

/-- The members of two objects agree by key, and their values by a relation. -/
abbrev Agree (R : Value → Value → Prop) : Fields → Fields → Prop :=
  List.Forall₂ fun m n => m.1 = n.1 ∧ R m.2 n.2

theorem keys_eq {fs gs : Fields} (hf : Sorted fs) (hg : Sorted gs) (hlen : fs.length = gs.length)
    (h : ∀ m ∈ fs, (get? m.1 gs).isSome) : fs.map Prod.fst = gs.map Prod.fst := by
  have hsub : fs.map Prod.fst ⊆ gs.map Prod.fst := by
    intro k hk
    obtain ⟨m, hm, rfl⟩ := List.mem_map.1 hk
    obtain ⟨y, hy⟩ := Option.isSome_iff_exists.1 (h m hm)
    exact List.mem_map.2 ⟨(m.1, y), mem_of_get? hy, rfl⟩
  have hperm := (List.subperm_of_subset hf.nodup hsub).perm_of_length_le (by simp [hlen])
  exact hperm.eq_of_pairwise (fun a b _ _ hab hba => absurd hba (String.lt_asymm hab)) hf hg

/-- Looking up each of as many keys is going through both objects at once. -/
theorem agree_iff {R : Value → Value → Prop} {fs gs : Fields} (hf : Sorted fs) (hg : Sorted gs) :
    Agree R fs gs ↔
      fs.length = gs.length ∧ ∀ m ∈ fs, ∃ y, get? m.1 gs = some y ∧ R m.2 y := by
  constructor
  · intro h
    refine ⟨h.length_eq, fun m hm => ?_⟩
    obtain ⟨i, hi, rfl⟩ := List.getElem_of_mem hm
    have hig : i < gs.length := h.length_eq ▸ hi
    obtain ⟨hk, hr⟩ := h.get hi hig
    refine ⟨gs[i].2, ?_, hr⟩
    rw [show fs[i].1 = gs[i].1 from hk]
    exact get?_of_mem hg (List.getElem_mem hig)
  · rintro ⟨hlen, h⟩
    have hkeys := keys_eq hf hg hlen fun m hm => by obtain ⟨y, hy, -⟩ := h m hm; simp [hy]
    refine List.forall₂_iff_get.2 ⟨hlen, fun i hif hig => ?_⟩
    obtain ⟨y, hy, hr⟩ := h fs[i] (List.getElem_mem hif)
    have hk : fs[i].1 = gs[i].1 := by
      rw [← List.getElem_map Prod.fst (h := by simpa using hif), List.getElem_of_eq hkeys,
        List.getElem_map]
    have hgi : get? gs[i].1 gs = some gs[i].2 := get?_of_mem hg (List.getElem_mem hig)
    rw [hk, hgi, Option.some.injEq] at hy
    exact ⟨hk, hy ▸ hr⟩

end Fields

namespace Value

theorem equalItems_iff {xs ys : List Value} :
    equalItems xs ys = true ↔ List.Forall₂ (fun x y => x.equal y = true) xs ys := by
  induction xs generalizing ys with
  | nil => cases ys <;> simp [equalItems]
  | cons x xs ih => cases ys <;> simp [equalItems, ih]

theorem equalFields_iff {fs gs : Fields} :
    equalFields fs gs = true ↔
      ∀ m ∈ fs, ∃ y, Fields.get? m.1 gs = some y ∧ m.2.equal y = true := by
  induction fs with
  | nil => simp [equalFields]
  | cons m rest ih =>
    obtain ⟨k, x⟩ := m
    simp only [equalFields, Bool.and_eq_true, ih, List.forall_mem_cons]
    cases Fields.get? k gs <;> simp

theorem equal_arr {xs ys : List Value} :
    (arr xs).equal (arr ys) = true ↔ List.Forall₂ (fun x y => x.equal y = true) xs ys := by
  rw [equal, equalItems_iff]

theorem equal_obj {fs gs : Fields} (hf : Fields.Sorted fs) (hg : Fields.Sorted gs) :
    (obj fs).equal (obj gs) = true ↔ Fields.Agree (fun x y => x.equal y = true) fs gs := by
  rw [equal, Bool.and_eq_true, beq_iff_eq, equalFields_iff, Fields.agree_iff hf hg]

theorem equal_num {m n : Number} : (num m).equal (num n) = true ↔ m.scaled = n.scaled := by
  rw [equal, beq_iff_eq, Number.compare_eq_eq]

end Value

end JsonRules
