/-!
# Keywords

The keywords of a schema in the order in which they are read, and the names of the two rules
that combine others.
-/

namespace JsonRules

inductive SizeBound where
  | least
  | most
  deriving DecidableEq, Repr

inductive RangeBound where
  | minimum
  | minimumExclusive
  | maximum
  | maximumExclusive
  deriving DecidableEq, Repr

inductive Keyword where
  | type
  | enum
  | const
  | multipleOf
  | range (bound : RangeBound)
  | length (bound : SizeBound)
  | pattern
  | items
  | additionalItems
  | arraySize (bound : SizeBound)
  | uniqueItems
  | contains
  | allOf
  | anyOf
  deriving DecidableEq, Repr

namespace Keyword

def name : Keyword → String
  | type => "type"
  | enum => "enum"
  | const => "const"
  | multipleOf => "multipleOf"
  | range .minimum => "minimum"
  | range .minimumExclusive => "minimumExclusive"
  | range .maximum => "maximum"
  | range .maximumExclusive => "maximumExclusive"
  | length .least => "minLength"
  | length .most => "maxLength"
  | pattern => "pattern"
  | items => "items"
  | additionalItems => "additionalItems"
  | arraySize .least => "minItems"
  | arraySize .most => "maxItems"
  | uniqueItems => "uniqueItems"
  | contains => "contains"
  | allOf => "allOf"
  | anyOf => "anyOf"

/-- The keywords that a schema can have, in the order in which they are read. -/
def inOrder : List Keyword := [
  type, enum, const, multipleOf, range .minimum, range .minimumExclusive, range .maximum,
  range .maximumExclusive, length .least, length .most, pattern, items, additionalItems,
  arraySize .least, arraySize .most, uniqueItems, contains]

end Keyword

end JsonRules
