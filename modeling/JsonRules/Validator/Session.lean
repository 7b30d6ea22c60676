import JsonRules.Validator

/-!
# Sessions

A session keeps the current settings and validators by name. Each build makes a tree of its
own, which copies of the validator share with it; a change of the settings does not reach
validators that are already built.
-/

namespace JsonRules

/-- A validator and the number of the build that made it. -/
structure SharedValidator where
  build : Nat
  validator : Validator

structure Session where
  settings : Validator.Settings
  validators : List (String × SharedValidator)
  /-- The number of builds so far. -/
  builds : Nat

namespace Session

def start : Session := ⟨.default, [], 0⟩

def get? (s : Session) (name : String) : Option SharedValidator := s.validators.lookup name

/-- Names a validator; an earlier one of that name is forgotten. -/
def set (s : Session) (name : String) (v : SharedValidator) : Session :=
  { s with validators := (name, v) :: s.validators.filter (·.1 != name) }

def configure (s : Session) (change : Validator.Settings → Validator.Settings) : Session :=
  { s with settings := change s.settings }

def build (s : Session) (name : String) (schema : Value) :
    Except SchemaError (Validator × Session) := do
  let v ← s.settings.build schema
  return (v, { s with builds := s.builds + 1 }.set name ⟨s.builds, v⟩)

/-- Gives the validator of one name another one too. -/
def copy? (s : Session) (name copyName : String) : Option Session :=
  (s.get? name).map (s.set copyName)

/-- Whether two names stand for the same tree, if the first one is known. -/
def sameTree? (s : Session) (name other : String) : Option Bool :=
  (s.get? name).map fun v => (s.get? other).any fun w => v.build == w.build

end Session

end JsonRules
