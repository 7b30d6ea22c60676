import JsonRules.Rule.Evaluate

/-!
# Acceptance

Which values a rule accepts, without the errors of those that it rejects. What the checks accept is
left open: `Check.Holds` is what they do accept, and `Check.HoldsWith` what they would accept if the
matches that are given up had answers.
-/

namespace JsonRules

namespace Check

def Holds (c : Check) (v : Value) : Prop := c.violation? v = none

/-- The check holds where a match that is given up counts as one if `answer` says so. -/
def HoldsWith (answer : Pattern → String → Prop) : Check → Value → Prop
  | pattern p, .str s =>
    match p.isMatch s with
    | .ok matched => matched = true
    | .error _ => answer p s
  | c, v => c.Holds v

end Check

/-- The rule accepts the value if its checks hold of the values that `holds` relates them to. -/
inductive Rule.Accepts (holds : Check → Value → Prop) : Rule → Value → Prop
  | check {path : SchemaPath} {c : Check} {v : Value} (h : holds c v) :
      Accepts holds (check path c) v
  | allOf {path : SchemaPath} {rules : List Rule} {v : Value}
      (each : ∀ r ∈ rules, Accepts holds r v) : Accepts holds (allOf path rules) v
  | anyOf {path : SchemaPath} {rules : List Rule} {r : Rule} {v : Value} (mem : r ∈ rules)
      (h : Accepts holds r v) : Accepts holds (anyOf path rules) v
  | itemsUniform {path : SchemaPath} {r : Rule} {v : Value}
      (each : ∀ x ∈ v.items, Accepts holds r x) : Accepts holds (itemsUniform path r) v
  | itemsPositional {path : SchemaPath} {rules : List Rule} {v : Value}
      (each : ∀ (i : Nat) (r : Rule) (x : Value), rules[i]? = some r → v.items[i]? = some x →
        Accepts holds r x) : Accepts holds (itemsPositional path rules) v
  | additionalItems {path : SchemaPath} {offset : Nat} {r : Rule} {v : Value}
      (each : ∀ x ∈ v.items.drop offset, Accepts holds r x) :
      Accepts holds (additionalItems path offset r) v
  | contains {path : SchemaPath} {r : Rule} {items : List Value} {x : Value} (mem : x ∈ items)
      (h : Accepts holds r x) : Accepts holds (contains path r) (.arr items)
  | notArray {path : SchemaPath} {r : Rule} {v : Value} (h : ∀ items, v ≠ .arr items) :
      Accepts holds (contains path r) v

end JsonRules
