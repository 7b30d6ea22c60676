import JsonRules.Check

/-!
# Rules

A compiled schema is a tree of rules. Its leaves are checks; the other rules combine rules or
apply them to the items of an array. Every rule has the path of what it was compiled from.
-/

namespace JsonRules

inductive Rule where
  | check (path : SchemaPath) (check : Check)
  /-- Every rule holds. -/
  | allOf (path : SchemaPath) (rules : List Rule)
  /-- At least one rule holds. -/
  | anyOf (path : SchemaPath) (rules : List Rule)
  /-- The rule holds for every item. -/
  | itemsUniform (path : SchemaPath) (rule : Rule)
  /-- Each rule holds for the item at its place; further items are free. -/
  | itemsPositional (path : SchemaPath) (rules : List Rule)
  /-- The rule holds for every item from the place `offset` on. -/
  | additionalItems (path : SchemaPath) (offset : Nat) (rule : Rule)
  /-- The rule holds for at least one item. -/
  | contains (path : SchemaPath) (rule : Rule)

namespace Rule

def path : Rule → SchemaPath
  | check path _ => path
  | allOf path _ => path
  | anyOf path _ => path
  | itemsUniform path _ => path
  | itemsPositional path _ => path
  | additionalItems path _ _ => path
  | contains path _ => path

def keyword : Rule → Keyword
  | check _ c => c.keyword
  | allOf _ _ => .allOf
  | anyOf _ _ => .anyOf
  | itemsUniform _ _ => .items
  | itemsPositional _ _ => .items
  | additionalItems _ _ _ => .additionalItems
  | contains _ _ => .contains

def children : Rule → List Rule
  | check _ _ => []
  | allOf _ rules => rules
  | anyOf _ rules => rules
  | itemsUniform _ rule => [rule]
  | itemsPositional _ rules => rules
  | additionalItems _ _ rule => [rule]
  | contains _ rule => [rule]

mutual

def size : Rule → Nat
  | check _ _ => 1
  | allOf _ rules => 1 + sizeAll rules
  | anyOf _ rules => 1 + sizeAll rules
  | itemsUniform _ rule => 1 + rule.size
  | itemsPositional _ rules => 1 + sizeAll rules
  | additionalItems _ _ rule => 1 + rule.size
  | contains _ rule => 1 + rule.size

def sizeAll : List Rule → Nat
  | [] => 0
  | rule :: rest => rule.size + sizeAll rest

end

/-- The rule that the given indices lead to from child to child. -/
def descendant? : Rule → List Nat → Option Rule
  | rule, [] => some rule
  | rule, i :: rest => (rule.children[i]?).bind fun child => child.descendant? rest

/-- The rules on the way to the one that the given indices lead to, without that one. -/
def above : Rule → List Nat → List Rule
  | _, [] => []
  | rule, i :: rest => rule :: (rule.children[i]?).elim [] fun child => child.above rest

/-- Several rules as one: a single one is itself. -/
def all (path : SchemaPath) : List Rule → Rule
  | [rule] => rule
  | rules => allOf path rules

end Rule

end JsonRules
