import JsonRules.Location
import JsonRules.Pattern.Error
import JsonRules.Schema.Path
import JsonRules.Value.Kind

/-!
# Validation errors

Which rule a value breaks, and where in the value.
-/

namespace JsonRules

inductive Violation where
  | wrongKind (kind : Kind)
  /-- None of the alternatives accepts the value. -/
  | noAlternative
  | notListed
  | notConst
  | notMultiple (divisor : Nat)
  | outOfRange (bound : RangeBound) (border : Number)
  | wrongLength (bound : SizeBound) (limit : Nat)
  | noMatch (pattern : String)
  /-- The match was given up. -/
  | matchFailed (pattern : String) (error : PatternError)
  | wrongSize (bound : SizeBound) (limit : Nat)
  /-- Two items, the first one first, are equal. -/
  | notUnique (first second : Nat)
  | noneContained
  deriving DecidableEq

namespace Violation

/-- What a number does that lies beyond a bound. -/
def beyond : RangeBound → String
  | .minimum => "Less than minimum"
  | .minimumExclusive => "Not greater than exclusive minimum"
  | .maximum => "Greater than maximum"
  | .maximumExclusive => "Not less than exclusive maximum"

def message : Violation → String
  | wrongKind kind => "Not a " ++ kind.name
  | noAlternative => "does not satisfy any check"
  | notListed => "Value is outside of enumeration"
  | notConst => "Value does not match const"
  | notMultiple divisor => s!"Not a multiple of {divisor}"
  | outOfRange bound border => beyond bound ++ " " ++ String.ofList border.text
  | wrongLength .least limit => s!"Shorter than minLength {limit}"
  | wrongLength .most limit => s!"Longer than maxLength {limit}"
  | noMatch pattern => s!"Does not match pattern '{pattern}'"
  | matchFailed pattern error => s!"Could not evaluate pattern '{pattern}': " ++ error.message
  | wrongSize .least limit => s!"Fewer than minItems {limit}"
  | wrongSize .most limit => s!"More than maxItems {limit}"
  | notUnique first second => s!"Items at {first} and {second} are not unique"
  | noneContained => "does not contain any element accepted by `contains`"

end Violation

/-- The first rule that a value breaks: the rule's path and keyword, where in the value it is
broken, and how. -/
structure ValidationError where
  path : SchemaPath
  keyword : Keyword
  location : Location
  violation : Violation
  deriving DecidableEq

namespace ValidationError

/-- How a validation error is shown; the value itself is not named as a location. -/
def display (path reason : String) (location : Location) : String :=
  let place := if location.isRoot then "" else " (at " ++ location.text ++ ")"
  s!"{path}: {reason}{place}"

def reason (e : ValidationError) : String := e.violation.message

def message (e : ValidationError) : String := display e.path.text e.reason e.location

end ValidationError

end JsonRules
