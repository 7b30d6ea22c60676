import JsonRules.Pattern.Error
import JsonRules.Schema.Path
import JsonRules.Value.Kind

/-!
# Schema errors

What is wrong with a schema that cannot be compiled, and where.
-/

namespace JsonRules

inductive Defect where
  /-- More subschemas lie in one another than `limit`. -/
  | tooDeep (limit : Nat)
  | notObject
  | unknownType (name : String)
  | emptyTypes
  | typeNotString
  | duplicateType (kind : Kind)
  | typeShape
  | enumShape
  | notPositive
  | notNumber (bound : RangeBound)
  | notSize (keyword : Keyword)
  | patternShape
  | invalidPattern (error : PatternError)
  | itemsShape
  | additionalItemsShape
  | uniqueItemsShape
  | containsShape
  deriving DecidableEq, Repr

namespace Defect

def message : Defect → String
  | tooDeep limit => s!"Schema nesting exceeds maximum depth of {limit}"
  | notObject => "Schema must be an object"
  | unknownType name => Kind.unknownMessage name
  | emptyTypes => "type array must not be empty"
  | typeNotString => "type array must contain only strings"
  | duplicateType kind => "Duplicate type '" ++ kind.name ++ "'"
  | typeShape => "type must be a string or an array of strings"
  | enumShape => "enum must be an array"
  | notPositive => "multipleOf must be a positive integer"
  | notNumber bound => (Keyword.range bound).name ++ " must be a number"
  | notSize keyword => keyword.name ++ " must be a non-negative integer"
  | patternShape => "pattern must be a string"
  | invalidPattern error => "Invalid pattern: " ++ error.message
  | itemsShape => "items must be an object or an array"
  | additionalItemsShape => "additionalItems must be an object"
  | uniqueItemsShape => "uniqueItems must be a boolean"
  | containsShape => "contains must be an object"

end Defect

structure SchemaError where
  path : SchemaPath
  defect : Defect
  deriving DecidableEq, Repr

namespace SchemaError

def display (path reason : String) : String := s!"{path}: {reason}"

def reason (e : SchemaError) : String := e.defect.message

def message (e : SchemaError) : String := display e.path.text e.reason

end SchemaError

end JsonRules
