import JsonRules.Schema.Keyword

/-!
# Schema paths

A schema path says which part of a schema a rule comes from: a root, which can be any text,
and the keywords and indices that lead from it.
-/

namespace JsonRules

inductive PathStep where
  | keyword (k : Keyword)
  | index (i : Nat)
  deriving DecidableEq, Repr

def PathStep.text : PathStep → String
  | keyword k => k.name
  | index i => toString i

/-- The steps are listed from the root on. -/
structure SchemaPath where
  root : String
  steps : List PathStep
  deriving DecidableEq, Repr

namespace SchemaPath

def ofRoot (root : String) : SchemaPath := ⟨root, []⟩

def key (p : SchemaPath) (k : Keyword) : SchemaPath := ⟨p.root, p.steps ++ [.keyword k]⟩

def index (p : SchemaPath) (i : Nat) : SchemaPath := ⟨p.root, p.steps ++ [.index i]⟩

/-- The path `inner` of what is at the path `outer`, which stands in the place of its root. -/
def append (outer inner : SchemaPath) : SchemaPath := ⟨outer.root, outer.steps ++ inner.steps⟩

/-- The root, and every step after a slash. -/
def text (p : SchemaPath) : String := p.steps.foldl (fun s step => s ++ "/" ++ step.text) p.root

end SchemaPath

end JsonRules
