import JsonRules.Check

/-!
# Interpretation

What a schema says of a value, read off the schema itself. Its keywords are applied to the value
in their order; those that hold schemas apply them to the items of the value. A keyword passes
every value that it does not speak of. The first error is the result.

Numbers are judged by their exact values. What a number is divided by is a parameter, which is the
divisor itself in what a schema is meant to say: `Number.ownDivisor`.
-/

namespace JsonRules

namespace RangeBound

def holds (bound : RangeBound) (border n : Number) : Bool :=
  match bound with
  | minimum => border.scaled ≤ n.scaled
  | minimumExclusive => border.scaled < n.scaled
  | maximum => n.scaled ≤ border.scaled
  | maximumExclusive => n.scaled < border.scaled

end RangeBound

def SizeBound.holds (bound : SizeBound) (limit size : Nat) : Bool :=
  match bound with
  | least => limit ≤ size
  | most => size ≤ limit

namespace Number

def isWhole (n : Number) : Bool := (Double.one : Int) ∣ n.scaled

/-- The exact value is a whole number of times the divisor. -/
def isTimes (n : Number) (divisor : Nat) : Bool := (divisor * Double.one : Int) ∣ n.scaled

/-- Every number is divided by the divisor itself. -/
def ownDivisor (_ : Number) (divisor : Nat) : Nat := divisor

end Number

namespace Value

/-- The value is of the kind. A number with a whole value is an integer, however it is written. -/
def isOfKind (kind : Kind) (v : Value) : Bool :=
  match kind, v with
  | .null, null => true
  | .boolean, bool _ => true
  | .number, num _ => true
  | .integer, num n => n.isWhole
  | .string, str _ => true
  | .array, arr _ => true
  | .object, obj _ => true
  | _, _ => false

def isOfType (name v : Value) : Bool :=
  match name with
  | .str name => (Kind.ofName? name).any fun kind => v.isOfKind kind
  | _ => false

/-- The first item that equals an earlier one; the position of the first such one comes first. -/
def firstEqual? (items : List Value) : Option (Nat × Nat) :=
  items.zipIdx.findSome? fun (v, j) => ((items.take j).findIdx? v.equal).map fun i => (i, j)

end Value

namespace Schema

/-- The error of a value under `type`. Several types are broken all at once. -/
def typeError? (path : SchemaPath) (given v : Value) (l : Location) : Option ValidationError :=
  match given with
  | .str name => (Kind.ofName? name).bind fun kind =>
    if v.isOfKind kind then none else some ⟨path.key .type, .type, l, .wrongKind kind⟩
  | .arr names =>
    if names.any fun name => name.isOfType v then none
    else some ⟨path.key .anyOf, .anyOf, l, .noAlternative⟩
  | _ => none

/-- How a value breaks a keyword that looks at it as a whole and not into its items. -/
def violation? (limits : PatternLimits) (divisorFor : Number → Nat → Nat) (k : Keyword)
    (given v : Value) : Option Violation :=
  match k, given, v with
  | .enum, .arr values, v => if values.any fun w => w.equal v then none else some .notListed
  | .const, literal, v => if literal.equal v then none else some .notConst
  | .multipleOf, .num given, .num n => given.toSize?.bind fun divisor =>
    if n.isTimes (divisorFor n divisor) then none else some (.notMultiple divisor)
  | .range bound, .num border, .num n =>
    if bound.holds border n then none else some (.outOfRange bound border)
  | .length bound, .num given, .str s => given.toSize?.bind fun limit =>
    if bound.holds limit s.length then none else some (.wrongLength bound limit)
  | .pattern, .str source, .str s =>
    match Pattern.compile limits source with
    | .ok p =>
      match p.isMatch s with
      | .ok true => none
      | .ok false => some (.noMatch source)
      | .error e => some (.matchFailed source e)
    | .error _ => none
  | .arraySize bound, .num given, .arr items => given.toSize?.bind fun limit =>
    if bound.holds limit items.length then none else some (.wrongSize bound limit)
  | .uniqueItems, .bool true, .arr items =>
    (Value.firstEqual? items).map fun (i, j) => .notUnique i j
  | _, _, _ => none

/-- The first error of a value under a schema at a path. -/
def interpret (limits : PatternLimits) (divisorFor : Number → Nat → Nat) (schema : Value)
    (path : SchemaPath) (v : Value) (l : Location) : Option ValidationError :=
  match schema with
  | .obj fields => Keyword.inOrder.findSome? fun k =>
    match _ : Fields.get? k.name fields with
    | none => none
    | some given =>
      let here := path.key k
      match k with
      | .type => typeError? path given v l
      | .items =>
        match _ : given, v with
        | .obj _, .arr items => items.zipIdx.findSome? fun (x, i) =>
          interpret limits divisorFor given here x (l.push i)
        | .arr schemas, .arr items => (schemas.attach.zip items).zipIdx.findSome? fun ((s, x), i) =>
          interpret limits divisorFor s.1 (here.index i) x (l.push i)
        | _, _ => none
      | .additionalItems =>
        match Fields.get? Keyword.items.name fields, v with
        | some (.arr schemas), .arr items =>
          (items.zipIdx.drop schemas.length).findSome? fun (x, i) =>
            interpret limits divisorFor given here x (l.push i)
        | _, _ => none
      | .contains =>
        match v with
        | .arr items =>
          if items.zipIdx.any fun (x, i) =>
            (interpret limits divisorFor given here x (l.push i)).isNone
          then none else some ⟨here, .contains, l, .noneContained⟩
        | _ => none
      | k => (violation? limits divisorFor k given v).map fun violation => ⟨here, k, l, violation⟩
  | _ => none
termination_by sizeOf schema
decreasing_by
  · exact Fields.sizeOf_get?_lt ‹_›
  · exact Fields.sizeOf_mem_get?_lt ‹_› s.2
  · exact Fields.sizeOf_get?_lt ‹_›
  · exact Fields.sizeOf_get?_lt ‹_›

end Schema

end JsonRules
