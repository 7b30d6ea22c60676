import JsonRules.Rule.Evaluate

/-!
# Rules that evaluate alike

Rules of schemas that differ in how numbers are written differ in nothing that a value can tell,
except that the violation of a range shows its border as it was written.
-/

namespace JsonRules

/-- Both fail, with errors that are related, or both succeed, with results that are. -/
inductive SameOutcome {ε δ α β : Type} (E : ε → δ → Prop) (R : α → β → Prop) :
    Except ε α → Except δ β → Prop
  | ok {a : α} {b : β} (h : R a b) : SameOutcome E R (.ok a) (.ok b)
  | error {e : ε} {d : δ} (h : E e d) : SameOutcome E R (.error e) (.error d)

/-- The violations are the same, but for the way in which the border of a range is written. -/
inductive Violation.Alike : Violation → Violation → Prop
  | refl (violation : Violation) : Alike violation violation
  | outOfRange (bound : RangeBound) {border other : Number} (h : border.scaled = other.scaled) :
      Alike (.outOfRange bound border) (.outOfRange bound other)

/-- The errors lie at the same places, and their violations are alike. -/
structure ValidationError.Alike (e d : ValidationError) : Prop where
  path : e.path = d.path
  keyword : e.keyword = d.keyword
  location : e.location = d.location
  violation : e.violation.Alike d.violation

/-- Both rules accept a value at a location, or they reject it alike. -/
def Rule.Alike (r s : Rule) : Prop :=
  ∀ (v : Json) (l : Location),
    SameOutcome ValidationError.Alike Eq (r.evaluate v.1 l) (s.evaluate v.1 l)

end JsonRules
