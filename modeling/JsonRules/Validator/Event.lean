import JsonRules.Validator

/-!
# Events

What is told about the work of validators: each compilation with its outcome, and each value
that is rejected. Values that pass are not told of.
-/

namespace JsonRules

inductive EventLevel where
  | debug
  | trace
  deriving DecidableEq, Repr

def EventLevel.name : EventLevel → String
  | debug => "debug"
  | trace => "trace"

inductive Event where
  /-- A schema with the given root path was compiled to a number of rules. -/
  | compiled (rootPath : String) (rules : Nat)
  | refused (error : SchemaError)
  /-- A value of the given kind was rejected. -/
  | rejected (error : ValidationError) (kind : Kind)
  deriving DecidableEq

namespace Event

def level : Event → EventLevel
  | compiled _ _ => .debug
  | refused _ => .debug
  | rejected _ _ => .trace

def message : Event → String
  | compiled _ _ => "compiled schema"
  | refused _ => "schema rejected"
  | rejected _ _ => "value rejected"

/-- What the event is about, as names and texts. -/
def details : Event → List (String × String)
  | compiled rootPath rules => [("path", rootPath), ("nodes", toString rules)]
  | refused e => [("path", e.path.text), ("reason", e.reason)]
  | rejected e kind =>
    [("path", e.path.text), ("keyword", e.keyword.name), ("location", e.location.text),
      ("kind", kind.name)]

def ofCompilation (rootPath : String) : Except SchemaError Validator → Event
  | .ok v => compiled rootPath v.root.size
  | .error e => refused e

/-- The event of a validation, if the value was rejected. -/
def ofValidation? (value : Value) : Except ValidationError Unit → Option Event
  | .ok () => none
  | .error e => some (rejected e value.kind)

end Event

namespace Validator

/-- The events of building a validator and validating values with it in turn. -/
def events (s : Settings) (schema : Value) (values : List Value) : List Event :=
  let built := s.build schema
  Event.ofCompilation s.rootPath built ::
    match built with
    | .ok v => values.filterMap fun value => Event.ofValidation? value (v.validate value)
    | .error _ => []

end Validator

end JsonRules
