import JsonRules.Rule.Evaluate
import JsonRules.Rule.WellFormed
import JsonRules.Schema.Defects

/-!
# Where errors come from

A rule either has errors of its own or passes on those of the rules below it. `Rule.Finds` says
which rule of a tree finds an error and in which part of the value; `Schema.Subschema` says which
schema of all those that lie in a schema holds the keyword of that rule.
-/

namespace JsonRules

def Value.at? (v : Value) (l : Location) : Option Value := v.follow? (l.indices.map .index)

namespace Schema

/-- The steps lead from a schema to one that is compiled with it. -/
inductive Subschema : Value → List PathStep → Value → Prop
  | self (schema : Value) : Subschema schema [] schema
  | items {fields members : Fields} {steps : List PathStep} {sub : Value}
      (items : Fields.get? Keyword.items.name fields = some (.obj members))
      (below : Subschema (.obj members) steps sub) :
      Subschema (.obj fields) (.keyword .items :: steps) sub
  | place {fields : Fields} {schemas : List Value} {i : Nat} {schema : Value}
      {steps : List PathStep} {sub : Value}
      (items : Fields.get? Keyword.items.name fields = some (.arr schemas))
      (at_i : schemas[i]? = some schema) (below : Subschema schema steps sub) :
      Subschema (.obj fields) (.keyword .items :: .index i :: steps) sub
  | additionalItems {fields members : Fields} {schemas : List Value} {steps : List PathStep}
      {sub : Value} (items : Fields.get? Keyword.items.name fields = some (.arr schemas))
      (additional : Fields.get? Keyword.additionalItems.name fields = some (.obj members))
      (below : Subschema (.obj members) steps sub) :
      Subschema (.obj fields) (.keyword .additionalItems :: steps) sub
  | contains {fields members : Fields} {steps : List PathStep} {sub : Value}
      (contains : Fields.get? Keyword.contains.name fields = some (.obj members))
      (below : Subschema (.obj members) steps sub) :
      Subschema (.obj fields) (.keyword .contains :: steps) sub

/-- In the schema at a path lies one that has the keyword of a rule, which `here` is the path of. -/
def Holds (schema : Value) (path here : SchemaPath) (k : Keyword) : Prop :=
  ∃ steps fields given, Subschema schema steps (.obj fields) ∧
    Fields.get? k.inSchema.name fields = some given ∧
    here = SchemaPath.key ⟨path.root, path.steps ++ steps⟩ k

end Schema

namespace Rule

/-- The rule has errors of its own; any other one passes on those of the rules below it. -/
def reports : Rule → Bool
  | check _ _ | anyOf _ _ | contains _ _ => true
  | _ => false

/-- The rules below are applied to items, and their errors passed on. -/
def entersItems : Rule → Bool
  | itemsUniform _ _ | itemsPositional _ _ | additionalItems _ _ _ => true
  | _ => false

/-- The rule that the indices lead to finds the error in a part of the value. Each rule on the way
that goes on to items has put an index into the location, and none has hidden the errors of the
rules below. -/
structure Finds (tree : Rule) (v : Value) (e : ValidationError) (indices : List Nat) (node : Rule)
    (w : Value) : Prop where
  located : v.at? e.location = some w
  reached : tree.descendant? indices = some node
  reports : node.reports = true
  path : node.path = e.path
  keyword : node.keyword = e.keyword
  evaluates : node.evaluate w e.location = .error e
  entered : e.location.length = (tree.above indices).countP entersItems
  passed : ∀ r ∈ tree.above indices, r.keyword ≠ .contains ∧ r.keyword ≠ .anyOf

end Rule

end JsonRules
