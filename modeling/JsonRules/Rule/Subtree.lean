import JsonRules.Rule.WellFormed

/-!
# The tree of a subschema

Where the rules of a schema that is compiled with another one lie in the tree of that one.
-/

namespace JsonRules.Rule

/-- The rules that the keywords of a schema give, which its tree joins unless there is a single
one. -/
def parts : Rule → List Rule
  | allOf _ rules => rules
  | rule => [rule]

/-- The rule that a keyword gives in the tree of a schema. -/
def part? (tree : Rule) (k : Keyword) : Option Rule :=
  tree.parts.find? fun r => r.keyword.inSchema = k

/-- The tree of the schema that the steps lead to, in the tree of a schema. -/
def subtree? : Rule → List PathStep → Option Rule
  | tree, [] => some tree
  | tree, .keyword k :: rest =>
    match tree.part? k, rest with
    | some (itemsUniform _ r), rest => r.subtree? rest
    | some (itemsPositional _ rules), .index i :: rest => rules[i]?.bind fun r => r.subtree? rest
    | some (additionalItems _ _ r), rest => r.subtree? rest
    | some (contains _ r), rest => r.subtree? rest
    | _, _ => none
  | _, .index _ :: _ => none

section Subtree

variable {tree r : Rule} {path : SchemaPath} {k : Keyword} (rest : List PathStep)

theorem subtree?_itemsUniform (h : tree.part? k = some (itemsUniform path r)) :
    tree.subtree? (.keyword k :: rest) = r.subtree? rest := by
  rw [subtree?.eq_def]
  simp only [h]

theorem subtree?_itemsPositional {rules : List Rule}
    (h : tree.part? k = some (itemsPositional path rules)) (i : Nat) :
    tree.subtree? (.keyword k :: .index i :: rest) =
      rules[i]?.bind fun r => r.subtree? rest := by
  rw [subtree?.eq_def]
  simp only [h]

theorem subtree?_additionalItems {offset : Nat}
    (h : tree.part? k = some (additionalItems path offset r)) :
    tree.subtree? (.keyword k :: rest) = r.subtree? rest := by
  rw [subtree?.eq_def]
  simp only [h]

theorem subtree?_contains (h : tree.part? k = some (contains path r)) :
    tree.subtree? (.keyword k :: rest) = r.subtree? rest := by
  rw [subtree?.eq_def]
  simp only [h]

end Subtree
end JsonRules.Rule
