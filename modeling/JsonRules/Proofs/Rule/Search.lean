import JsonRules.Proofs.Search
import JsonRules.Rule.Evaluate

/-!
# Evaluation as a search

The mutual recursion of `Rule.error?` over rules and items is a search in lists: for the first
error under rules, among items, or among pairs of a rule and an item.
-/

namespace JsonRules

/-- The errors of items are searched for in order, each at its index. -/
theorem firstItemError?_eq (error? : Value → Location → Option ValidationError) (l : Location)
    (i : Nat) (items : List Value) :
    firstItemError? error? l i items =
      (items.zipIdx i).findSome? fun (v, i) => error? v (l.push i) := by
  induction items generalizing i with
  | nil => rfl
  | cons v rest ih =>
    rw [firstItemError?, ih, List.zipIdx_cons, findSome?_cons_or]

theorem someItemPasses_eq (error? : Value → Location → Option ValidationError) (l : Location)
    (i : Nat) (items : List Value) :
    someItemPasses error? l i items =
      (items.zipIdx i).any fun (v, i) => (error? v (l.push i)).isNone := by
  induction items generalizing i with
  | nil => rfl
  | cons v rest ih => rw [someItemPasses, ih, List.zipIdx_cons, List.any_cons]

namespace Rule

theorem firstError?_eq (rules : List Rule) (v : Value) (l : Location) :
    firstError? rules v l = rules.findSome? fun r => r.error? v l := by
  induction rules with
  | nil => rfl
  | cons r rest ih =>
    rw [firstError?, ih, findSome?_cons_or]

theorem somePasses_eq (rules : List Rule) (v : Value) (l : Location) :
    somePasses rules v l = rules.any fun r => (r.error? v l).isNone := by
  induction rules with
  | nil => rfl
  | cons r rest ih => rw [somePasses, ih, List.any_cons]

theorem firstPlaceError?_eq (rules : List Rule) (i : Nat) (items : List Value) (l : Location) :
    firstPlaceError? rules i items l =
      ((rules.zip items).zipIdx i).findSome? fun ((r, v), i) => r.error? v (l.push i) := by
  induction rules generalizing i items with
  | nil => rfl
  | cons r rest ih =>
    cases items with
    | nil => rfl
    | cons v items =>
      rw [firstPlaceError?, ih, List.zip_cons_cons, List.zipIdx_cons, findSome?_cons_or]

/-- Several rules made one find what the first of them finds. -/
theorem error?_all (path : SchemaPath) (rules : List Rule) (v : Value) (l : Location) :
    (all path rules).error? v l = rules.findSome? fun r => r.error? v l := by
  rw [← firstError?_eq]
  unfold all
  split
  · next r => rw [firstError?, firstError?, Option.or_none]
  · next h => rw [error?]

end Rule

end JsonRules
