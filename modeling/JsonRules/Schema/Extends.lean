import JsonRules.Schema.Keyword
import JsonRules.Value

/-!
# Schemas with more keywords

A schema extends another one if it has all members of that one and perhaps more. What it shares
with the other schema stays as it is, except that the schemas that both hold in the same place may
be extended in turn.
-/

namespace JsonRules.Schema

/-- The names of the keywords that hold a schema. -/
def schemaNames : List String :=
  [Keyword.items.name, Keyword.additionalItems.name, Keyword.contains.name]

mutual

/-- The first schema extends the second one. -/
inductive Extends : Value → Value → Prop
  | refl (schema : Value) : Extends schema schema
  | obj {more fields : Fields}
      (has : ∀ name v, Fields.get? name fields = some v → (Fields.get? name more).isSome)
      (keeps : ∀ name v w, Fields.get? name fields = some v → Fields.get? name more = some w →
        Keeps name w v) : Extends (.obj more) (.obj fields)

/-- The first value of a member extends the second one, if it is changed at all. -/
inductive Keeps : String → Value → Value → Prop
  | refl (name : String) (v : Value) : Keeps name v v
  | schema {name : String} {more members : Fields} (holds : name ∈ schemaNames)
      (extended : Extends (.obj more) (.obj members)) : Keeps name (.obj more) (.obj members)
  | places {more schemas : List Value} (length : more.length = schemas.length)
      (extended : ∀ (i : Nat) (s t : Value), schemas[i]? = some s → more[i]? = some t →
        Extends t s) : Keeps Keyword.items.name (.arr more) (.arr schemas)

end

end JsonRules.Schema
