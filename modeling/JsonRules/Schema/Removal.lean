import JsonRules.Schema.Compile

/-!
# Schemas without a keyword

`Value.modify` changes the part of a value that steps lead to and keeps the rest. A keyword is
taken out of a schema that lies in another one in this way.
-/

namespace JsonRules

namespace Fields

def erase (key : String) (fields : Fields) : Fields := fields.filter fun m => m.1 ≠ key

def modify (key : String) (f : Value → Value) : Fields → Fields
  | [] => []
  | (k, v) :: rest => if k = key then (k, f v) :: rest else (k, v) :: modify key f rest

end Fields

namespace Value

def erase (key : String) : Value → Value
  | obj fields => .obj (Fields.erase key fields)
  | v => v

/-- Changes the part of a value that steps lead to, if they lead to one. -/
def modify (f : Value → Value) : List PathStep → Value → Value
  | [], v => f v
  | .keyword k :: rest, obj fields => .obj (Fields.modify k.name (modify f rest) fields)
  | .index i :: rest, arr items => .arr (items.modify i (modify f rest))
  | _, v => v

end Value

/-- The schema, with a keyword taken out of the part that the steps lead to. -/
def Schema.without (k : Keyword) (steps : List PathStep) (schema : Value) : Value :=
  schema.modify (Value.erase k.name) steps

end JsonRules
