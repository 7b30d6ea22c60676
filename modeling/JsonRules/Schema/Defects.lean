import JsonRules.Schema.Compile

/-!
# Defects

Everything that is wrong with a schema, in the order of its keywords. Each keyword is judged by
itself, so that those after a defective one are still judged. The defects of a subschema stand in
the place of the keyword that holds it; below a schema that lies too deep nothing is looked at.
-/

namespace JsonRules.Schema

/-- What is wrong with a member of a list of types, after the members before it. -/
def memberDefect? (before : List Value) (member : Value) : Option Defect :=
  match member with
  | .str name =>
    match Kind.ofName? name with
    | some kind => if before.any fun w => w.equal member then some (.duplicateType kind) else none
    | none => some (.unknownType name)
  | _ => some .typeNotString

def typeDefects (path : SchemaPath) (given : Value) : List SchemaError :=
  match given with
  | .str name => if (Kind.ofName? name).isSome then [] else [⟨path, .unknownType name⟩]
  | .arr [] => [⟨path, .emptyTypes⟩]
  | .arr names => names.zipIdx.filterMap fun (name, i) =>
    (memberDefect? (names.take i) name).map fun d => ⟨path.index i, d⟩
  | _ => [⟨path, .typeShape⟩]

/-- What is wrong with the value of a keyword that holds neither types nor schemas. -/
def valueDefect? (limits : PatternLimits) (k : Keyword) (given : Value) : Option Defect :=
  match k, given with
  | .enum, .arr _ => none
  | .enum, _ => some .enumShape
  | .multipleOf, .num n => if n.toSize?.any fun size => 0 < size then none else some .notPositive
  | .multipleOf, _ => some .notPositive
  | .range _, .num _ => none
  | .range bound, _ => some (.notNumber bound)
  | .length bound, .num n => if n.toSize?.isSome then none else some (.notSize (.length bound))
  | .length bound, _ => some (.notSize (.length bound))
  | .pattern, .str source =>
    match Pattern.compile limits source with
    | .ok _ => none
    | .error e => some (.invalidPattern e)
  | .pattern, _ => some .patternShape
  | .arraySize bound, .num n =>
    if n.toSize?.isSome then none else some (.notSize (.arraySize bound))
  | .arraySize bound, _ => some (.notSize (.arraySize bound))
  | .uniqueItems, .bool _ => none
  | .uniqueItems, _ => some .uniqueItemsShape
  | _, _ => none

/-- The defects of a schema at a path below the given number of other schemas. Additional items
are described only beside a list of schemas. -/
def defects (limits : Limits) (schema : Value) (path : SchemaPath) (depth : Nat) :
    List SchemaError :=
  if limits.depth < depth then [⟨path, .tooDeep limits.depth⟩]
  else match schema with
  | .obj fields => Keyword.inOrder.flatMap fun k =>
    match _ : Fields.get? k.name fields with
    | none => []
    | some given =>
      let here := path.key k
      match k with
      | .type => typeDefects here given
      | .items =>
        match _ : given with
        | .obj _ => defects limits given here (depth + 1)
        | .arr schemas => schemas.attach.zipIdx.flatMap fun (s, i) =>
          defects limits s.1 (here.index i) (depth + 1)
        | _ => [⟨here, .itemsShape⟩]
      | .additionalItems =>
        match given with
        | .obj _ =>
          match Fields.get? Keyword.items.name fields with
          | some (.arr _) => defects limits given here (depth + 1)
          | _ => []
        | _ => [⟨here, .additionalItemsShape⟩]
      | .contains =>
        match given with
        | .obj _ => defects limits given here (depth + 1)
        | _ => [⟨here, .containsShape⟩]
      | k => ((valueDefect? limits.pattern k given).map fun d => ⟨here, d⟩).toList
  | _ => [⟨path, .notObject⟩]
termination_by sizeOf schema
decreasing_by
  · exact Fields.sizeOf_get?_lt ‹_›
  · exact Fields.sizeOf_mem_get?_lt ‹_› s.2
  · exact Fields.sizeOf_get?_lt ‹_›
  · exact Fields.sizeOf_get?_lt ‹_›

end JsonRules.Schema

namespace JsonRules

/-- The step leads into a subschema. -/
def PathStep.descends : PathStep → Bool
  | keyword .items | keyword .additionalItems | keyword .contains => true
  | _ => false

/-- The part of a value that steps lead to: members by their keywords, items by their indices. -/
def Value.follow? : Value → List PathStep → Option Value
  | v, [] => some v
  | obj fields, .keyword k :: rest => (Fields.get? k.name fields).bind fun v => v.follow? rest
  | arr items, .index i :: rest => items[i]?.bind fun v => v.follow? rest
  | _, _ => none

/-- The value, which lies behind the steps in a schema at a depth, has the defect. -/
def Defect.Offends (limits : Schema.Limits) (depth : Nat) (steps : List PathStep) (w : Value) :
    Defect → Prop
  | tooDeep limit => limit = limits.depth ∧ depth + steps.countP PathStep.descends = limit + 1
  | notObject => w.kind ≠ .object
  | unknownType name => w = .str name ∧ Kind.ofName? name = none
  | emptyTypes => w = .arr []
  | typeNotString => w.kind ≠ .string
  | duplicateType kind => w = .str kind.name
  | typeShape => w.kind ≠ .string ∧ w.kind ≠ .array
  | enumShape => w.kind ≠ .array
  | notPositive => ∀ n size, w = .num n → n.toSize? = some size → size = 0
  | notNumber _ => w.kind ≠ .number
  | notSize _ => ∀ n, w = .num n → n.toSize? = none
  | patternShape => w.kind ≠ .string
  | invalidPattern e => ∃ source, w = .str source ∧ Pattern.compile limits.pattern source = .error e
  | itemsShape => w.kind ≠ .object ∧ w.kind ≠ .array
  | additionalItemsShape => w.kind ≠ .object
  | uniqueItemsShape => w.kind ≠ .boolean
  | containsShape => w.kind ≠ .object

end JsonRules
