import JsonRules.Proofs.Value.Structure
import JsonRules.Value.Reader

/-!
# Values of JSON texts are ordered

`Fields.insert` keeps members sorted, so every object that the reader builds lists its members in
key order, and a value read from a JSON text is one of type `Json`.
-/

namespace JsonRules

namespace Fields

theorem mem_insert {key : String} {v : Value} {fields : Fields} {m : String × Value}
    (h : m ∈ insert key v fields) : m = (key, v) ∨ m ∈ fields := by
  induction fields with
  | nil => exact .inl (List.mem_singleton.1 h)
  | cons n rest ih =>
    obtain ⟨k, x⟩ := n
    rw [insert] at h
    split at h
    · exact List.mem_cons.1 h
    split at h
    · exact (List.mem_cons.1 h).imp_right (List.mem_cons_of_mem _)
    · rcases List.mem_cons.1 h with rfl | h
      · exact .inr List.mem_cons_self
      · exact (ih h).imp_right (List.mem_cons_of_mem _)

theorem sorted_cons {m : String × Value} {fields : Fields} :
    Sorted (m :: fields) ↔ (∀ n ∈ fields, m.1 < n.1) ∧ Sorted fields := by
  simp [Sorted]

theorem sorted_insert {fields : Fields} (h : Sorted fields) (key : String) (v : Value) :
    Sorted (insert key v fields) := by
  induction fields with
  | nil => exact List.pairwise_singleton _ _
  | cons n rest ih =>
    obtain ⟨k, x⟩ := n
    obtain ⟨hk, hrest⟩ := sorted_cons.1 h
    rw [insert]
    split
    · next hlt =>
      refine sorted_cons.2 ⟨fun m hm => ?_, h⟩
      rcases List.mem_cons.1 hm with rfl | hm
      · exact hlt
      · exact String.lt_trans hlt (hk m hm)
    split
    · next heq => exact sorted_cons.2 ⟨fun m hm => heq ▸ hk m hm, hrest⟩
    · next hlt hne =>
      refine sorted_cons.2 ⟨fun m hm => ?_, ih hrest⟩
      rcases mem_insert hm with rfl | hm
      · exact Std.lt_of_le_of_ne (String.not_lt.1 hlt) hne
      · exact hk m hm

theorem ordered_ofList {members : List (String × Value)} (h : ∀ m ∈ members, m.2.Ordered) :
    (Value.obj (ofList members)).Ordered := by
  have step : ∀ (members : List (String × Value)) (fields : Fields),
      (∀ m ∈ members, m.2.Ordered) → Sorted fields → (∀ m ∈ fields, m.2.Ordered) →
      (Value.obj (members.foldl (fun fields m => insert m.1 m.2 fields) fields)).Ordered := by
    intro members
    induction members with
    | nil => exact fun fields _ hs ho => Value.ordered_obj.2 ⟨hs, ho⟩
    | cons m rest ih =>
      intro fields hm hs ho
      refine ih _ (fun n hn => hm n (List.mem_cons_of_mem _ hn)) (sorted_insert hs _ _) ?_
      intro n hn
      rcases mem_insert hn with rfl | hn
      · exact hm m List.mem_cons_self
      · exact ho n hn
  exact step members [] h List.Pairwise.nil nofun

end Fields

namespace Reader

/-- What is read is ordered, for values, lists of items and lists of members alike. -/
theorem ordered_of_read (fuel : Nat) :
    (∀ cs v rest, value? fuel cs = some (v, rest) → v.Ordered) ∧
      (∀ cs vs rest, items? fuel cs = some (vs, rest) → ∀ v ∈ vs, v.Ordered) ∧
      (∀ cs ms rest, members? fuel cs = some (ms, rest) → ∀ m ∈ ms, m.2.Ordered) := by
  induction fuel with
  | zero =>
    refine ⟨fun cs v rest h => ?_, fun cs vs rest h => ?_, fun cs ms rest h => ?_⟩ <;> cases h
  | succ fuel ih =>
    obtain ⟨ihv, ihi, ihm⟩ := ih
    refine ⟨fun cs v rest h => ?_, fun cs vs rest h => ?_, fun cs ms rest h => ?_⟩
    · simp only [value?] at h
      split at h
      case h_5 =>
        split at h
        · cases h; exact Value.ordered_arr.2 (List.forall_mem_nil _)
        · obtain ⟨⟨vs, r⟩, hr, he⟩ := Option.map_eq_some_iff.1 h
          cases he
          exact Value.ordered_arr.2 (ihi _ _ _ hr)
      case h_6 =>
        split at h
        · cases h; exact Value.ordered_obj.2 ⟨List.Pairwise.nil, List.forall_mem_nil _⟩
        · obtain ⟨⟨ms, r⟩, hr, he⟩ := Option.map_eq_some_iff.1 h
          cases he
          exact Fields.ordered_ofList (ihm _ _ _ hr)
      all_goals
        obtain ⟨_, _, he⟩ := Option.map_eq_some_iff.1 h
        cases he
        trivial
    · simp only [items?] at h
      obtain ⟨⟨v, r⟩, hv, h⟩ := Option.bind_eq_some_iff.1 h
      have hvo := ihv _ _ _ hv
      simp only at h
      split at h
      · obtain ⟨⟨ws, r'⟩, hr, he⟩ := Option.map_eq_some_iff.1 h
        cases he
        exact List.forall_mem_cons.2 ⟨hvo, ihi _ _ _ hr⟩
      · cases h; exact List.forall_mem_singleton.2 hvo
      · cases h
    · simp only [members?] at h
      split at h
      · obtain ⟨⟨k, r⟩, -, h⟩ := Option.bind_eq_some_iff.1 h
        obtain ⟨r', -, h⟩ := Option.bind_eq_some_iff.1 h
        obtain ⟨⟨v, r⟩, hv, h⟩ := Option.bind_eq_some_iff.1 h
        have hvo := ihv _ _ _ hv
        simp only at h
        split at h
        · obtain ⟨⟨ns, r'⟩, hr, he⟩ := Option.map_eq_some_iff.1 h
          cases he
          exact List.forall_mem_cons.2 ⟨hvo, ihm _ _ _ hr⟩
        · cases h; exact List.forall_mem_singleton.2 hvo
        · cases h
      · cases h

end Reader

/-- A JSON text gives an ordered value. -/
theorem Value.ordered_of_ofJson? {text : String} {v : Value} (h : Value.ofJson? text = some v) :
    v.Ordered := by
  simp only [Value.ofJson?] at h
  split at h
  · next v' rest hread =>
    split at h
    · cases h; exact (Reader.ordered_of_read _).1 _ _ _ hread
    · cases h
  · cases h

end JsonRules
