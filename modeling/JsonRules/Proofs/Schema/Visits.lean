import JsonRules.Proofs.Schema.Derivation
import JsonRules.Proofs.Value.Structure
import JsonRules.Rule.Subtree
import JsonRules.Rule.Trace
import JsonRules.Schema.Visits

/-!
# Schemas that are held

Only `items`, `additionalItems` and `contains` hold schemas. Whatever else a keyword gives does not
depend on how schemas are compiled; what these give holds the rules of the schemas that they hold.
-/

namespace JsonRules.Schema

theorem attach_flatMap {α β : Type} (f : α → List β) (l : List α) :
    (l.attach.flatMap fun m => f m.1) = l.flatMap f := by
  conv_rhs => rw [← List.attach_map_subtype_val l, List.flatMap_map]

theorem visits_obj (fields : Fields) :
    visits (.obj fields) =
      [] :: (held fields).flatMap fun m => (visits m.2).map (m.1 ++ ·) := by
  rw [visits]
  exact congrArg _ (attach_flatMap (fun m : List PathStep × Value => (visits m.2).map (m.1 ++ ·)) _)

/-- A schema is compiled before those that lie in it. -/
theorem visits_head (schema : Value) : ∃ rest, visits schema = [] :: rest := by
  cases schema with
  | obj fields => exact ⟨_, visits_obj fields⟩
  | _ => exact ⟨[], by simp [visits]⟩

variable {fields : Fields} {k : Keyword} {m : List PathStep × Value}

/-- Only keywords whose steps descend hold schemas. -/
theorem heldBy_of_not_descends (hk : ¬(PathStep.keyword k).descends = true) :
    heldBy fields k = [] := by
  cases k with
  | items | additionalItems | contains => exact absurd rfl hk
  | _ => rfl

/-- A keyword that is not there holds nothing. -/
theorem heldBy_of_none (h : Fields.get? k.name fields = none) : heldBy fields k = [] := by
  cases k with
  | items | additionalItems | contains => simp only [heldBy, h]
  | _ => rfl

theorem depthOf_heldBy (h : m ∈ heldBy fields k) : depthOf m.1 = 1 := by
  unfold heldBy at h
  split at h
  · obtain rfl := List.mem_singleton.1 h; rfl
  · obtain ⟨_, -, rfl⟩ := List.mem_map.1 h; rfl
  · split at h
    · obtain rfl := List.mem_singleton.1 h; rfl
    · cases h
  · obtain rfl := List.mem_singleton.1 h; rfl
  · cases h

theorem depthOf_append (steps rest : List PathStep) :
    depthOf (steps ++ rest) = depthOf steps + depthOf rest := List.countP_append

/-- What lies in a schema that is held lies in the schema that holds it. -/
theorem Subschema.of_heldBy (h : m ∈ heldBy fields k) {rest : List PathStep} {sub : Value}
    (hsub : Subschema m.2 rest sub) : Subschema (.obj fields) (m.1 ++ rest) sub := by
  unfold heldBy at h
  split at h
  · next hget => obtain rfl := List.mem_singleton.1 h; exact .items hget hsub
  · next schemas hget =>
    obtain ⟨⟨s, i⟩, hs, rfl⟩ := List.mem_map.1 h
    exact .place hget (List.mk_mem_zipIdx_iff_getElem?.1 hs) hsub
  · next hget =>
    split at h
    · next hitems => obtain rfl := List.mem_singleton.1 h; exact .additionalItems hitems hget hsub
    · cases h
  · next hget => obtain rfl := List.mem_singleton.1 h; exact .contains hget hsub
  · cases h

/-- A schema that lies in another one is that one or lies in a schema that it holds. -/
theorem Subschema.cases_held {schema sub : Value} {steps : List PathStep}
    (h : Subschema schema steps sub) :
    (steps = [] ∧ sub = schema) ∨ ∃ fields k m rest, schema = .obj fields ∧ k ∈ Keyword.inOrder ∧
      m ∈ heldBy fields k ∧ steps = m.1 ++ rest ∧ Subschema m.2 rest sub := by
  cases h with
  | self => exact .inl ⟨rfl, rfl⟩
  | @items fields members rest _ hget below =>
    have hm : ([.keyword .items], .obj members) ∈ heldBy fields .items := by
      simp only [heldBy, hget]; exact List.mem_cons_self
    exact .inr ⟨fields, .items, _, rest, rfl, by decide, hm, rfl, below⟩
  | @place fields schemas i s rest _ hget hs below =>
    have hm : ([.keyword .items, .index i], s) ∈ heldBy fields .items := by
      simp only [heldBy, hget]
      exact List.mem_map.2 ⟨(s, i), List.mk_mem_zipIdx_iff_getElem?.2 hs, rfl⟩
    exact .inr ⟨fields, .items, _, rest, rfl, by decide, hm, rfl, below⟩
  | @additionalItems fields members schemas rest _ hitems hget below =>
    have hm : ([.keyword .additionalItems], .obj members) ∈ heldBy fields .additionalItems := by
      simp only [heldBy, hget, hitems]; exact List.mem_cons_self
    exact .inr ⟨fields, .additionalItems, _, rest, rfl, by decide, hm, rfl, below⟩
  | @contains fields members rest _ hget below =>
    have hm : ([.keyword .contains], .obj members) ∈ heldBy fields .contains := by
      simp only [heldBy, hget]; exact List.mem_cons_self
    exact .inr ⟨fields, .contains, _, rest, rfl, by decide, hm, rfl, below⟩

theorem mem_visits_obj {steps : List PathStep} :
    steps ∈ visits (.obj fields) ↔ steps = [] ∨ ∃ k ∈ Keyword.inOrder, ∃ m ∈ heldBy fields k,
      ∃ rest ∈ visits m.2, m.1 ++ rest = steps := by
  simp only [visits_obj, List.mem_cons, held, List.mem_flatMap, List.mem_map]
  exact or_congr_right ⟨fun ⟨m, ⟨k, hk, hm⟩, h⟩ => ⟨k, hk, m, hm, h⟩,
    fun ⟨k, hk, m, hm, h⟩ => ⟨m, ⟨k, hk, hm⟩, h⟩⟩

/-- The visits lead to the schemas that lie in a schema. -/
theorem mem_visits_iff {schema : Value} {steps : List PathStep} :
    steps ∈ visits schema ↔ ∃ sub, Subschema schema steps sub := by
  induction schema using Value.bySize generalizing steps with
  | step schema ih =>
    constructor
    · intro h
      cases schema with
      | obj fields =>
        obtain rfl | ⟨k, hk, m, hm, rest, hrest, rfl⟩ := mem_visits_obj.1 h
        · exact ⟨_, .self _⟩
        · obtain ⟨sub, hsub⟩ := (ih m.2 (sizeOf_lt_of_mem_heldBy hm)).1 hrest
          exact ⟨sub, .of_heldBy hm hsub⟩
      | _ =>
        obtain rfl : steps = [] := by simpa [visits] using h
        exact ⟨_, .self _⟩
    · rintro ⟨sub, h⟩
      obtain ⟨rfl, rfl⟩ | ⟨fields, k, m, rest, rfl, hk, hm, rfl, hsub⟩ := h.cases_held
      · obtain ⟨rest, h⟩ := visits_head sub
        rw [h]
        exact List.mem_cons_self
      · have hrest := (ih m.2 (sizeOf_lt_of_mem_heldBy hm)).2 ⟨sub, hsub⟩
        exact mem_visits_obj.2 (.inr ⟨k, hk, m, hm, rest, hrest, rfl⟩)

section Gives

variable {limits : PatternLimits} {path : SchemaPath} {v : Value} {rule? : Option Rule}

/-- Every schema that a keyword holds has a rule, which lies in the rule that the keyword gives
where the steps lead. -/
theorem Gives.held {Sub : SchemaPath → Value → Rule → Prop}
    (h : Gives limits Sub path fields k v rule?) (hget : Fields.get? k.name fields = some v)
    (hm : m ∈ heldBy fields k) :
    ∃ rule r, rule? = some rule ∧ Sub ⟨path.root, path.steps ++ m.1⟩ m.2 r ∧
      ∀ tree : Rule, tree.part? k = some rule →
        ∀ rest, tree.subtree? (m.1 ++ rest) = r.subtree? rest := by
  cases h with
  | @items members rule sub =>
    simp only [heldBy, hget, List.mem_singleton] at hm
    subst hm
    exact ⟨_, rule, rfl, sub, fun _ hpart rest => Rule.subtree?_itemsUniform rest hpart⟩
  | @places schemas rules length sub =>
    simp only [heldBy, hget] at hm
    obtain ⟨⟨s, i⟩, hs, rfl⟩ := List.mem_map.1 hm
    obtain ⟨hi, rfl⟩ := List.getElem?_eq_some_iff.1 (List.mk_mem_zipIdx_iff_getElem?.1 hs)
    have hr : i < rules.length := length ▸ hi
    have hsub := sub i hi hr
    rw [SchemaPath.index, SchemaPath.key, List.append_assoc] at hsub
    refine ⟨_, rules[i], rfl, hsub, fun _ hpart rest => ?_⟩
    exact (Rule.subtree?_itemsPositional rest hpart i).trans (by rw [List.getElem?_eq_getElem hr]; rfl)
  | @additionalItems members schemas rule items sub =>
    simp only [heldBy, hget, items, List.mem_singleton] at hm
    subst hm
    exact ⟨_, rule, rfl, sub, fun _ hpart rest => Rule.subtree?_additionalItems rest hpart⟩
  | noAdditionalItems items => simp [heldBy, hget] at hm
  | @contains members rule sub =>
    simp only [heldBy, hget, List.mem_singleton] at hm
    subst hm
    exact ⟨_, rule, rfl, sub, fun _ hpart rest => Rule.subtree?_contains rest hpart⟩
  | _ => cases hm

/-- What holds no schema gives the same beside other members, and however schemas compile. -/
theorem valueRule_of_not_descends (hk : ¬(PathStep.keyword k).descends = true) (compile again : SubCompiler)
    (fields other : Fields) :
    valueRule limits compile path fields v k = valueRule limits again path other v k := by
  cases k with
  | items | additionalItems | contains => exact absurd rfl hk
  | _ => rfl

theorem keywordRule_of_not_descends (hk : ¬(PathStep.keyword k).descends = true)
    (compile again : SubCompiler) :
    keywordRule limits compile path fields k = keywordRule limits again path fields k := by
  unfold keywordRule
  split
  · rfl
  · exact valueRule_of_not_descends hk compile again fields fields

/-- Where a keyword is not defective, the schemas that it holds compile. -/
theorem exists_compiled {compile : SubCompiler} (hk : k ∈ Keyword.inOrder)
    (h : keywordRule limits compile path fields k = .ok rule?) (hm : m ∈ heldBy fields k) :
    ∃ r, compile ⟨path.root, path.steps ++ m.1⟩ m.2 = .ok r := by
  cases hget : Fields.get? k.name fields with
  | none => rw [heldBy_of_none hget] at hm; cases hm
  | some v =>
    rw [keywordRule_of_some hget] at h
    obtain ⟨-, r, -, hr, -⟩ := (valueRule_ok (fun _ _ _ => id) hk h).held hget hm
    exact ⟨r, hr⟩

end Gives

end JsonRules.Schema
