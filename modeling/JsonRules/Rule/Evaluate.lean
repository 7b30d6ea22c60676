import JsonRules.Rule

/-!
# Evaluation

`Rule.error?` is the first error of a value under a rule, in the order of the rules and then of
the items. The location says where the value lies in the value that is validated; errors of an
item are found at the item's own location. What is wrong with the alternatives of `anyOf` or
with the items of `contains` is not told.
-/

namespace JsonRules

namespace Value

/-- The items of an array; other values have none. -/
def items : Value → List Value
  | arr items => items
  | _ => []

end Value

/-- The first error of items that follow one another from an index on. -/
def firstItemError? (error? : Value → Location → Option ValidationError) (location : Location) :
    Nat → List Value → Option ValidationError
  | _, [] => none
  | i, v :: rest => (error? v (location.push i)).or (firstItemError? error? location (i + 1) rest)

def someItemPasses (error? : Value → Location → Option ValidationError) (location : Location) :
    Nat → List Value → Bool
  | _, [] => false
  | i, v :: rest =>
    (error? v (location.push i)).isNone || someItemPasses error? location (i + 1) rest

namespace Rule

mutual

def error? : Rule → Value → Location → Option ValidationError
  | check path c, v, l => (c.violation? v).map fun violation => ⟨path, c.keyword, l, violation⟩
  | allOf _ rules, v, l => firstError? rules v l
  | anyOf path rules, v, l =>
    if somePasses rules v l then none else some ⟨path, .anyOf, l, .noAlternative⟩
  | itemsUniform _ rule, v, l => firstItemError? rule.error? l 0 v.items
  | itemsPositional _ rules, v, l => firstPlaceError? rules 0 v.items l
  | additionalItems _ offset rule, v, l =>
    firstItemError? rule.error? l offset (v.items.drop offset)
  | contains path rule, .arr items, l =>
    if someItemPasses rule.error? l 0 items then none
    else some ⟨path, .contains, l, .noneContained⟩
  | contains _ _, _, _ => none

def firstError? : List Rule → Value → Location → Option ValidationError
  | [], _, _ => none
  | rule :: rest, v, l => (rule.error? v l).or (firstError? rest v l)

def somePasses : List Rule → Value → Location → Bool
  | [], _, _ => false
  | rule :: rest, v, l => (rule.error? v l).isNone || somePasses rest v l

/-- The first error of items under the rules of their places, from an index on. -/
def firstPlaceError? : List Rule → Nat → List Value → Location → Option ValidationError
  | rule :: rest, i, v :: values, l =>
    (rule.error? v (l.push i)).or (firstPlaceError? rest (i + 1) values l)
  | _, _, _, _ => none

end

def evaluate (rule : Rule) (value : Value) (location : Location) : Except ValidationError Unit :=
  match rule.error? value location with
  | none => .ok ()
  | some e => .error e

end Rule

end JsonRules
