import JsonRules.Value

/-!
# Kinds

The seven kinds that a `type` keyword names. Null is of the kind `null` only; an integral
number is of the kinds `number` and `integer`.
-/

namespace JsonRules

inductive Kind where
  | null
  | boolean
  | object
  | array
  | number
  | string
  | integer
  deriving DecidableEq, Repr

namespace Kind

/-- All kinds, in the order in which they are documented. -/
def all : List Kind := [null, boolean, object, array, number, string, integer]

def name : Kind → String
  | null => "null"
  | boolean => "boolean"
  | object => "object"
  | array => "array"
  | number => "number"
  | string => "string"
  | integer => "integer"

theorem mem_all (k : Kind) : k ∈ all := by cases k <;> decide

theorem name_injective : Function.Injective name := by
  intro a b h
  cases a <;> cases b <;> first | rfl | exact absurd h (by decide)

def ofName? (name : String) : Option Kind := all.find? fun k => k.name == name

def unknownMessage (name : String) : String := s!"Unknown type '{name}'"

def accepts (kind : Kind) (value : Value) : Bool :=
  match kind, value with
  | null, .null => true
  | boolean, .bool _ => true
  | object, .obj _ => true
  | array, .arr _ => true
  | number, .num _ => true
  | string, .str _ => true
  | integer, .num n => n.isIntegral
  | _, _ => false

end Kind

/-- The kind of a value; numbers are of the kind `number` here. -/
def Value.kind : Value → Kind
  | .null => .null
  | .bool _ => .boolean
  | .num _ => .number
  | .str _ => .string
  | .arr _ => .array
  | .obj _ => .object

end JsonRules
