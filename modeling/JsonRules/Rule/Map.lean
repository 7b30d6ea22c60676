import JsonRules.Rule

/-!
# Rules moved and changed

`Rule.map` gives every rule of a tree another path and every check another one in its place; the
shape of the tree stays.
-/

namespace JsonRules.Rule

mutual

def map (f : SchemaPath → SchemaPath) (g : Check → Check) : Rule → Rule
  | check path c => check (f path) (g c)
  | allOf path rules => allOf (f path) (mapAll f g rules)
  | anyOf path rules => anyOf (f path) (mapAll f g rules)
  | itemsUniform path rule => itemsUniform (f path) (rule.map f g)
  | itemsPositional path rules => itemsPositional (f path) (mapAll f g rules)
  | additionalItems path offset rule => additionalItems (f path) offset (rule.map f g)
  | contains path rule => contains (f path) (rule.map f g)

def mapAll (f : SchemaPath → SchemaPath) (g : Check → Check) : List Rule → List Rule
  | [] => []
  | rule :: rest => rule.map f g :: mapAll f g rest

end

section Map

variable (f : SchemaPath → SchemaPath) (g : Check → Check)

theorem mapAll_eq (rules : List Rule) : mapAll f g rules = rules.map (map f g) := by
  induction rules with
  | nil => rfl
  | cons rule rest ih => rw [mapAll, ih, List.map_cons]

@[simp] theorem path_map (rule : Rule) : (rule.map f g).path = f rule.path := by
  cases rule <;> rfl

@[simp] theorem children_map (rule : Rule) :
    (rule.map f g).children = rule.children.map (map f g) := by
  cases rule <;> simp [map, children, mapAll_eq]

theorem map_all (path : SchemaPath) (rules : List Rule) :
    (all path rules).map f g = all (f path) (rules.map (map f g)) := by
  match rules with
  | [] | [_] => rfl
  | r :: s :: rest => exact congrArg (allOf (f path)) (mapAll_eq f g (r :: s :: rest))

end Map

end JsonRules.Rule
