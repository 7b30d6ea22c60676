import JsonRules.Rule

/-!
# Well-formed trees

What the rules of a compiled tree have in common, apart from what their types say: the numbers and
values that a check holds, the order of the rules that are joined, where additional items are
checked, and how many schemas lie in one another.
-/

namespace JsonRules

/-- The keyword of a schema that a rule of the given keyword comes from. Alternatives come from a
list of types. -/
def Keyword.inSchema : Keyword → Keyword
  | anyOf => type
  | k => k

namespace Check

/-- The check divides the value by zero, the only step of evaluation that has no result. -/
def DividesByZero : Check → Value → Prop
  | multipleOf divisor, .num n => divisor = 0 ∧ n.toInt? ≠ none
  | _, _ => False

/-- Numbers are divided by a positive one; no listed value is null, under another key than its own
or equal to another one. -/
def WellFormed : Check → Prop
  | multipleOf divisor => 1 ≤ divisor
  | enum allowed _ =>
    (∀ entry ∈ allowed, entry.2 ≠ .null ∧ entry.1 = entry.2.key) ∧
      allowed.Pairwise fun a b => a.2.equal b.2 = false ∧ b.2.equal a.2 = false
  | _ => True

end Check

namespace Rule

/-- The kind that a rule asks for, if it asks for nothing else. -/
def kind? : Rule → Option Kind
  | check _ (.type kind) => some kind
  | _ => none

/-- The rules below are those of schemas one level further down. -/
def descends : Rule → Bool
  | itemsUniform _ _ | itemsPositional _ _ | additionalItems _ _ _ | contains _ _ => true
  | _ => false

/-- Joined rules are not a single one and stand in the order of their keywords; alternatives are
different kinds. -/
def Arranged : Rule → Prop
  | check _ c => c.WellFormed
  | allOf _ rules =>
    rules.length ≠ 1 ∧ (rules.map fun r => r.keyword.inSchema).Sublist Keyword.inOrder
  | anyOf _ rules =>
    rules ≠ [] ∧ ∃ kinds : List Kind, kinds.Nodup ∧ rules.map kind? = kinds.map some
  | _ => True

/-- Where the given indices lead, joined rules have the rule of items at places right before the
one of the additional items, which are those after the last of these places. -/
def FollowsItems (tree : Rule) (indices : List Nat) (offset : Nat) : Prop :=
  ∃ parent i path rules place rulesOfItems, indices = parent ++ [i + 1] ∧
    tree.descendant? parent = some (allOf path rules) ∧
    rules[i]? = some (itemsPositional place rulesOfItems) ∧ rulesOfItems.length = offset

/-- What holds of every tree that is compiled under a limit on the depth of schemas. -/
structure WellFormed (depth : Nat) (tree : Rule) : Prop where
  arranged : ∀ indices r, tree.descendant? indices = some r → r.Arranged
  additional : ∀ indices path offset r,
    tree.descendant? indices = some (additionalItems path offset r) →
      tree.FollowsItems indices offset
  nested : ∀ indices r, tree.descendant? indices = some r →
    (tree.above indices).countP descends ≤ depth

end Rule

end JsonRules
