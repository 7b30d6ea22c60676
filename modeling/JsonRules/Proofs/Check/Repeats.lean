import JsonRules.Proofs.Check
import JsonRules.Rule.Accept

/-!
# The first repeated item

The search for a repeated item goes through the items once and remembers their keys. It finds the
pair of places that a comparison of all items with one another would name: the first item that
equals one before it, and that one.
-/

namespace JsonRules

/-- The first repetition in a sequence, where `same` says which places hold the same: `j` is the
first place that holds what an earlier one holds, and `i` the first place that holds it. -/
structure FirstRepeat (same : Nat → Nat → Prop) (i j : Nat) : Prop where
  before : i < j
  repeats : same i j
  earliest : ∀ k l, k < l → l < j → ¬same k l
  first : ∀ k, k < i → ¬same k j
  only : ∀ k, k < j → same k j → k = i

theorem FirstRepeat.unique {same : Nat → Nat → Prop} {i j k l : Nat} (h : FirstRepeat same i j)
    (h' : FirstRepeat same k l) : i = k ∧ j = l := by
  obtain rfl : j = l := by
    rcases Nat.lt_trichotomy j l with hlt | heq | hlt
    · exact absurd h.repeats (h'.earliest i j h.before hlt)
    · exact heq
    · exact absurd h'.repeats (h.earliest k l h'.before hlt)
  exact ⟨h'.only i h.before h.repeats, rfl⟩

def SameAt {α : Type} (xs : List α) (i j : Nat) : Prop := ∃ x, xs[i]? = some x ∧ xs[j]? = some x

section Keys

variable {α : Type} {xs : List α} {i j : Nat}

theorem mem_take_of_sameAt {x : α} (hx : xs[j]? = some x) (hi : i < j) (h : SameAt xs i j) :
    x ∈ xs.take j := by
  obtain ⟨y, hyi, hyj⟩ := h
  obtain rfl : x = y := Option.some.inj (hx.symm.trans hyj)
  refine List.mem_of_getElem? (i := i) ?_
  rw [List.getElem?_take, if_pos hi, hyi]

theorem exists_sameAt_of_mem_take {x : α} (hx : xs[j]? = some x) (h : x ∈ xs.take j) :
    ∃ k, k < j ∧ SameAt xs k j := by
  obtain ⟨k, hk⟩ := List.mem_iff_getElem?.1 h
  rw [List.getElem?_take, Option.ite_none_right_eq_some] at hk
  exact ⟨k, hk.1, x, hk.2, hx⟩

variable [DecidableEq α]

theorem findIdx?_take_eq_none {x : α} :
    ((xs.take j).findIdx? (· = x)).map (fun i => (i, j)) = none ↔ x ∉ xs.take j := by
  rw [Option.map_eq_none_iff, List.findIdx?_eq_none_iff]
  simp only [decide_eq_false_iff_not]
  exact ⟨fun h hmem => h x hmem rfl, fun h y hy heq => h (heq ▸ hy)⟩

theorem firstRepeat?_eq_none : firstRepeat? xs = none ↔ ∀ i j, i < j → ¬SameAt xs i j := by
  rw [firstRepeat?_eq, List.findSome?_eq_none_iff]
  constructor
  · intro h i j hi hsame
    obtain ⟨x, -, hx⟩ := id hsame
    have hnone := h (x, j) (List.mem_zipIdx_iff_getElem?.2 hx)
    exact findIdx?_take_eq_none.1 hnone (mem_take_of_sameAt hx hi hsame)
  · rintro h ⟨x, j⟩ hmem
    have hx := List.mem_zipIdx_iff_getElem?.1 hmem
    refine findIdx?_take_eq_none.2 fun hx' => ?_
    obtain ⟨k, hk, hsame⟩ := exists_sameAt_of_mem_take hx hx'
    exact h k j hk hsame

theorem firstRepeat_of_firstRepeat? (h : firstRepeat? xs = some (i, j)) :
    FirstRepeat (SameAt xs) i j := by
  rw [firstRepeat?_eq, findSome?_zipIdx_eq_some] at h
  obtain ⟨j', x, hx, hfound, hbefore⟩ := h
  obtain ⟨i', hi', heq⟩ := Option.map_eq_some_iff.1 hfound
  cases heq
  obtain ⟨hlen, hxi, -⟩ := List.findIdx?_eq_some_iff_getElem.1 hi'
  rw [List.length_take, Nat.lt_min] at hlen
  rw [decide_eq_true_iff, List.getElem_take] at hxi
  have hsame : SameAt xs i j := ⟨x, List.getElem?_eq_some_iff.2 ⟨hlen.2, hxi⟩, hx⟩
  have earliest : ∀ k l, k < l → l < j → ¬SameAt xs k l := by
    intro k l hk hl hkl
    obtain ⟨y, -, hy⟩ := id hkl
    exact findIdx?_take_eq_none.1 (hbefore l y hl hy) (mem_take_of_sameAt hy hk hkl)
  -- two places before the repeated item would repeat one another before it
  have only : ∀ k, k < j → SameAt xs k j → k = i := by
    rintro k hk ⟨y, hyk, hyj⟩
    obtain rfl : x = y := Option.some.inj (hx.symm.trans hyj)
    obtain ⟨z, hzi, hzj⟩ := hsame
    obtain rfl : x = z := Option.some.inj (hx.symm.trans hzj)
    rcases Nat.lt_trichotomy k i with hlt | heq | hlt
    · exact absurd ⟨x, hyk, hzi⟩ (earliest k i hlt hlen.1)
    · exact heq
    · exact absurd ⟨x, hzi, hyk⟩ (earliest i k hlt hk)
  refine ⟨hlen.1, hsame, earliest, fun k hk hkj => ?_, only⟩
  exact absurd (only k (Nat.lt_trans hk hlen.1) hkj) (Nat.ne_of_lt hk)

/-- The search finds the first repetition and no other pair of places. -/
theorem firstRepeat?_eq_some :
    firstRepeat? xs = some (i, j) ↔ FirstRepeat (SameAt xs) i j := by
  refine ⟨firstRepeat_of_firstRepeat?, fun h => ?_⟩
  cases hfound : firstRepeat? xs with
  | none => exact absurd h.repeats (firstRepeat?_eq_none.1 hfound i j h.before)
  | some r =>
    obtain ⟨hi, hj⟩ := h.unique (firstRepeat_of_firstRepeat? hfound)
    rw [hi, hj]

end Keys

namespace Value

def EqualAt (items : List Value) (i j : Nat) : Prop :=
  ∃ v w, items[i]? = some v ∧ items[j]? = some w ∧ v.equal w = true

/-- Equal items are those of the same key. -/
theorem sameAt_key {items : List Value} (h : ∀ v ∈ items, v.Ordered) :
    SameAt (items.map key) = EqualAt items := by
  funext i j
  simp only [SameAt, EqualAt, List.getElem?_map, Option.map_eq_some_iff, eq_iff_iff]
  constructor
  · rintro ⟨k, ⟨v, hv, hvk⟩, w, hw, hwk⟩
    have hvo := h v (List.mem_of_getElem? hv)
    have hwo := h w (List.mem_of_getElem? hw)
    exact ⟨v, w, hv, hw, (key_eq_iff hvo hwo).1 (hvk.trans hwk.symm)⟩
  · rintro ⟨v, w, hv, hw, hequal⟩
    have hvo := h v (List.mem_of_getElem? hv)
    have hwo := h w (List.mem_of_getElem? hw)
    exact ⟨w.key, ⟨v, hv, (key_eq_iff hvo hwo).2 hequal⟩, w, hw, rfl⟩

end Value

namespace Check

theorem violation?_uniqueItems (items : List Value) : uniqueItems.violation? (.arr items) =
    (firstRepeat? (items.map Value.key)).map fun r => .notUnique r.1 r.2 := rfl

/-- Items are unique if no two of them are equal. Else the error names the first item that equals
one before it, and that one. -/
theorem uniqueItems_violation?_iff (items : List Json) :
    (uniqueItems.Holds (.arr items.unattach) ↔
      ¬∃ i j, i < j ∧ Value.EqualAt items.unattach i j) ∧
    ∀ violation, uniqueItems.violation? (.arr items.unattach) = some violation ↔
      ∃ i j, violation = .notUnique i j ∧ FirstRepeat (Value.EqualAt items.unattach) i j := by
  have hordered : ∀ v ∈ items.unattach, v.Ordered := fun _ => Value.ordered_of_mem_unattach
  rw [← Value.sameAt_key hordered]
  constructor
  · rw [Holds, violation?_uniqueItems, Option.map_eq_none_iff, firstRepeat?_eq_none]
    simp only [not_exists, not_and]
  · intro violation
    rw [violation?_uniqueItems, Option.map_eq_some_iff]
    simp only [← firstRepeat?_eq_some, Prod.exists]
    exact exists_congr fun i => exists_congr fun j => by rw [and_comm, eq_comm]

end Check

end JsonRules
