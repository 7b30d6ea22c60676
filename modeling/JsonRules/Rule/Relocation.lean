import JsonRules.Rule.Evaluate

/-!
# Errors at other places

An error of a part of a value is an error of the value with the place of the part in front.
`Rule.ComesTo` says in which parts of a value a rule looks, and under which rules, if it accepts
everything that it looks at before.
-/

namespace JsonRules

/-- The error of what lies at a location, as one of the value in which it lies. -/
def ValidationError.under (outer : Location) (e : ValidationError) : ValidationError :=
  { e with location := outer.append e.location }

namespace Rule

/-- The rule that is applied to the item at a place of an array. -/
def itemRule? : Rule → Nat → Option Rule
  | itemsUniform _ rule, _ => some rule
  | itemsPositional _ rules, i => rules[i]?
  | additionalItems _ offset rule, i => if offset ≤ i then some rule else none
  | _, _ => none

/-- `ComesTo rule v places node w`: evaluation of `v` under the rule comes to that of `w` under
`node`, where `w` lies at the places in `v`. Nothing that is evaluated before is rejected. -/
inductive ComesTo : Rule → Value → List Nat → Rule → Value → Prop
  | self (rule : Rule) (v : Value) : ComesTo rule v [] rule v
  | joined {path : SchemaPath} {before after : List Rule} {rule node : Rule} {v w : Value}
      {places : List Nat} (passed : ∀ r ∈ before, r.evaluate v .root = .ok ())
      (below : ComesTo rule v places node w) :
      ComesTo (allOf path (before ++ rule :: after)) v places node w
  | item {whole rule node : Rule} {items : List Value} {i : Nat} {x w : Value} {places : List Nat}
      (applied : whole.itemRule? i = some rule) (item : items[i]? = some x)
      (passed : ∀ (j : Nat) (r : Rule) (y : Value), j < i → whole.itemRule? j = some r →
        items[j]? = some y → r.evaluate y .root = .ok ())
      (below : ComesTo rule x places node w) : ComesTo whole (.arr items) (i :: places) node w

end Rule

end JsonRules
