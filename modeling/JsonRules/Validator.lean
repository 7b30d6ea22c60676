import JsonRules.Rule.Evaluate
import JsonRules.Schema.Compile

/-!
# Validators

A validator is a schema compiled once, for any number of values. Its settings are the root of
all paths and the limits of compilation. What happens when a schema is compiled or a value
rejected is told by events.
-/

namespace JsonRules

structure Validator where
  root : Rule

namespace Validator

structure Settings where
  rootPath : String
  limits : Schema.Limits
  deriving DecidableEq, Repr

namespace Settings

def default : Settings := ⟨"root", .default⟩

def withRootPath (s : Settings) (path : String) : Settings := { s with rootPath := path }

def withDepth (s : Settings) (depth : Nat) : Settings :=
  { s with limits := { s.limits with depth := depth } }

def withPatternSize (s : Settings) (size : Nat) : Settings :=
  { s with limits := { s.limits with pattern := { s.limits.pattern with size := size } } }

def withPatternSteps (s : Settings) (steps : Nat) : Settings :=
  { s with limits := { s.limits with pattern := { s.limits.pattern with steps := steps } } }

def build (s : Settings) (schema : Value) : Except SchemaError Validator :=
  (Schema.compile s.limits s.rootPath schema).map Validator.mk

end Settings

def validate (v : Validator) (value : Value) : Except ValidationError Unit :=
  v.root.evaluate value .root

def isValid (v : Validator) (value : Value) : Bool := (v.root.error? value .root).isNone

def validateAll (v : Validator) (values : List Value) : List (Except ValidationError Unit) :=
  values.map v.validate

end Validator

end JsonRules
