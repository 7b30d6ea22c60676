import JsonRules.Schema.Defects

/-!
# The schemas that are compiled with a schema

`visits` lists the steps to all of them in the order in which they are compiled: a schema before
those that lie in it, and these in the order of the keywords that hold them.
-/

namespace JsonRules.Schema

/-- The schemas that a keyword holds, each behind its steps. Additional items are described only
beside a list of schemas. -/
def heldBy (fields : Fields) (k : Keyword) : List (List PathStep × Value) :=
  match k, Fields.get? k.name fields with
  | .items, some (.obj members) => [([.keyword .items], .obj members)]
  | .items, some (.arr schemas) =>
    schemas.zipIdx.map fun (s, i) => ([.keyword .items, .index i], s)
  | .additionalItems, some (.obj members) =>
    match Fields.get? Keyword.items.name fields with
    | some (.arr _) => [([.keyword .additionalItems], .obj members)]
    | _ => []
  | .contains, some (.obj members) => [([.keyword .contains], .obj members)]
  | _, _ => []

/-- The schemas that the keywords hold. -/
def held (fields : Fields) : List (List PathStep × Value) :=
  Keyword.inOrder.flatMap (heldBy fields)

theorem sizeOf_lt_of_mem_heldBy {fields : Fields} {k : Keyword} {m : List PathStep × Value}
    (h : m ∈ heldBy fields k) : sizeOf m.2 < sizeOf (Value.obj fields) := by
  unfold heldBy at h
  split at h
  · next hget => obtain rfl := List.mem_singleton.1 h; exact Fields.sizeOf_get?_lt hget
  · next schemas hget =>
    obtain ⟨⟨s, i⟩, hs, rfl⟩ := List.mem_map.1 h
    exact Fields.sizeOf_mem_get?_lt hget (List.fst_mem_of_mem_zipIdx hs)
  · next hget =>
    split at h
    · obtain rfl := List.mem_singleton.1 h; exact Fields.sizeOf_get?_lt hget
    · cases h
  · next hget => obtain rfl := List.mem_singleton.1 h; exact Fields.sizeOf_get?_lt hget
  · cases h

theorem sizeOf_lt_of_mem_held {fields : Fields} {m : List PathStep × Value}
    (h : m ∈ held fields) : sizeOf m.2 < sizeOf (Value.obj fields) := by
  obtain ⟨k, -, hk⟩ := List.mem_flatMap.1 h
  exact sizeOf_lt_of_mem_heldBy hk

/-- The steps to the schemas that are compiled with a schema, itself among them, in their order. -/
def visits : Value → List (List PathStep)
  | .obj fields => [] :: (held fields).attach.flatMap fun m => (visits m.1.2).map (m.1.1 ++ ·)
  | _ => [[]]
termination_by schema => sizeOf schema
decreasing_by exact sizeOf_lt_of_mem_held m.2

/-- How many schemas deep the steps lead. -/
def depthOf (steps : List PathStep) : Nat := steps.countP PathStep.descends

end JsonRules.Schema
