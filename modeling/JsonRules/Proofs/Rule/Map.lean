import JsonRules.Proofs.Rule.Descend
import JsonRules.Rule.Map

/-!
# The rules of a tree that is moved

Indices lead to the same rules as before, each of them moved.
-/

namespace JsonRules.Rule

theorem map_id (rule : Rule) : rule.map id id = rule := by
  induction rule using byChildren with
  | step rule ih =>
    have hall : ∀ {rules : List Rule}, (∀ r ∈ rules, r.map id id = r) →
        mapAll id id rules = rules := by
      intro rules h
      rw [mapAll_eq, List.map_congr_left h, List.map_id']
    cases rule with
    | check path c => rfl
    | allOf path rules | anyOf path rules | itemsPositional path rules =>
      have hrules : mapAll id id rules = rules := hall ih
      rw [Rule.map, hrules]; rfl
    | itemsUniform path rule | additionalItems path offset rule | contains path rule =>
      rw [Rule.map, ih rule List.mem_cons_self]; rfl

theorem descendant?_map (f : SchemaPath → SchemaPath) (g : Check → Check) (rule : Rule)
    (indices : List Nat) :
    (rule.map f g).descendant? indices = (rule.descendant? indices).map (Rule.map f g) := by
  induction indices generalizing rule with
  | nil => rw [descendant?, descendant?]; rfl
  | cons i rest ih =>
    rw [descendant?, descendant?, children_map, List.getElem?_map]
    cases rule.children[i]? with
    | none => rfl
    | some child => exact ih child

end JsonRules.Rule
