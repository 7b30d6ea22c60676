/-!
# Searches in lists

What is searched for may be replaced by anything that agrees with it on the elements of the list.
-/

namespace JsonRules

variable {α β : Type}

theorem findSome?_cons_or (f : α → Option β) (a : α) (l : List α) :
    (a :: l).findSome? f = (f a).or (l.findSome? f) := by
  rw [List.findSome?_cons]
  cases f a <;> rfl

theorem findSome?_congr {f g : α → Option β} {l : List α} (h : ∀ a ∈ l, f a = g a) :
    l.findSome? f = l.findSome? g := by
  induction l with
  | nil => rfl
  | cons a rest ih =>
    rw [findSome?_cons_or, findSome?_cons_or, h a List.mem_cons_self,
      ih fun b hb => h b (List.mem_cons_of_mem _ hb)]

theorem findSome?_filterMap {γ : Type} (f : α → Option β) (g : β → Option γ) (l : List α) :
    (l.filterMap f).findSome? g = l.findSome? fun a => (f a).bind g := by
  induction l with
  | nil => rfl
  | cons a rest ih =>
    rw [List.filterMap_cons, findSome?_cons_or]
    cases f a with
    | none => exact ih
    | some b => rw [findSome?_cons_or, ih]; rfl

theorem findIdx?_congr {p q : α → Bool} {l : List α} (h : ∀ a ∈ l, p a = q a) :
    l.findIdx? p = l.findIdx? q := by
  induction l with
  | nil => rfl
  | cons a rest ih =>
    rw [List.findIdx?_cons, List.findIdx?_cons, h a List.mem_cons_self,
      ih fun b hb => h b (List.mem_cons_of_mem _ hb)]

theorem any_congr_mem {p q : α → Bool} {l : List α} (h : ∀ a ∈ l, p a = q a) :
    l.any p = l.any q := by
  rw [Bool.eq_iff_iff, List.any_eq_true, List.any_eq_true]
  exact exists_congr fun a => and_congr_right fun ha => by rw [h a ha]

theorem zipIdx_drop (l : List α) (start n : Nat) :
    (l.drop n).zipIdx (start + n) = (l.zipIdx start).drop n := by
  induction l generalizing start n with
  | nil => simp
  | cons a rest ih =>
    cases n with
    | zero => rfl
    | succ n =>
      rw [List.drop_succ_cons, List.zipIdx_cons, List.drop_succ_cons, ← ih (start + 1) n,
        Nat.add_assoc, Nat.add_comm 1 n]

/-- The first place at which something is found in a list, and nothing before it. -/
theorem findSome?_zipIdx_eq_some {f : α × Nat → Option β} {xs : List α} {b : β} :
    xs.zipIdx.findSome? f = some b ↔ ∃ j x, xs[j]? = some x ∧ f (x, j) = some b ∧
      ∀ k y, k < j → xs[k]? = some y → f (y, k) = none := by
  rw [List.findSome?_eq_some_iff]
  constructor
  · rintro ⟨before, ⟨x, j⟩, after, hsplit, hx, hbefore⟩
    have hplace : xs.zipIdx[before.length]? = some (x, j) := by simp [hsplit]
    obtain ⟨hj, hxs⟩ : before.length = j ∧ xs[j]? = some x := by
      rw [List.getElem?_zipIdx, Option.map_eq_some_iff] at hplace
      obtain ⟨y, hy, heq⟩ := hplace
      cases heq
      simpa using hy
    refine ⟨j, x, hxs, hx, fun k y hk hy => hbefore (y, k) ?_⟩
    have hmem : xs.zipIdx[k]? = some (y, k) := by simp [List.getElem?_zipIdx, hy]
    rw [hsplit, List.getElem?_append_left (hj ▸ hk)] at hmem
    exact List.mem_of_getElem? hmem
  · rintro ⟨j, x, hxs, hx, hbefore⟩
    have hplace : xs.zipIdx[j]? = some (x, j) := by simp [List.getElem?_zipIdx, hxs]
    obtain ⟨hlt, hget⟩ := List.getElem?_eq_some_iff.1 hplace
    refine ⟨xs.zipIdx.take j, (x, j), xs.zipIdx.drop (j + 1), ?_, hx, fun m hm => ?_⟩
    · rw [← hget, ← List.drop_eq_getElem_cons hlt, List.take_append_drop]
    · obtain ⟨k, hk⟩ := List.mem_iff_getElem?.1 hm
      rw [List.getElem?_take, Option.ite_none_right_eq_some, List.getElem?_zipIdx,
        Option.map_eq_some_iff] at hk
      obtain ⟨hlt, y, hy, rfl⟩ := hk
      rw [Nat.zero_add]
      exact hbefore k y hlt hy

/-- Two searches through a list of items, each item with what lies at its place in another list. -/
theorem findSome?_zip_congr {γ δ : Type} {l : List α} {m : List β} {items : List γ}
    {f : α → γ → Nat → Option δ} {g : β → γ → Nat → Option δ} (start : Nat)
    (hlen : l.length = m.length)
    (h : ∀ (i : Nat) (hl : i < l.length) (hm : i < m.length), ∀ x ∈ items,
      f l[i] x (start + i) = g m[i] x (start + i)) :
    (((l.zip items).zipIdx start).findSome? fun ((a, x), i) => f a x i) =
      ((m.zip items).zipIdx start).findSome? fun ((b, x), i) => g b x i := by
  induction l generalizing m items start with
  | nil => rw [List.eq_nil_of_length_eq_zero hlen.symm]; rfl
  | cons a l ih =>
    cases m with
    | nil => cases hlen
    | cons b m =>
      cases items with
      | nil => rfl
      | cons x items =>
        rw [List.zip_cons_cons, List.zip_cons_cons, List.zipIdx_cons, List.zipIdx_cons,
          findSome?_cons_or, findSome?_cons_or,
          ih (start + 1) (Nat.succ.inj hlen) fun i hl hm y hy => ?_]
        · have h0 : f a x start = g b x start :=
            h 0 (Nat.succ_pos _) (Nat.succ_pos _) x List.mem_cons_self
          simp only [h0]
        · rw [Nat.add_assoc, Nat.add_comm 1 i]
          exact h (i + 1) (Nat.succ_lt_succ hl) (Nat.succ_lt_succ hm) y (List.mem_cons_of_mem _ hy)

theorem any_mapIdx {f : Nat → α → β} {p : β → Bool} {q : α → Bool} {l : List α}
    (h : ∀ i a, p (f i a) = q a) : (l.mapIdx f).any p = l.any q := by
  induction l generalizing f with
  | nil => rfl
  | cons a rest ih =>
    rw [List.mapIdx_cons, List.any_cons, List.any_cons, h, ih fun i => h (i + 1)]

end JsonRules
