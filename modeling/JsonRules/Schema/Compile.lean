import JsonRules.Rule
import JsonRules.Schema.Error

/-!
# Compilation

A schema is an object. Each keyword that it has, in their order, gives at most one rule; a
schema with one rule is compiled to it, any other to all its rules together. Keywords that are
not known are passed over. The first defect is the result of a schema that has any.

The schemas of items and of `contains` are compiled in the same way. `compileAt` counts the
levels that are left below a schema, so that the limit on their nesting bounds the recursion.
-/

namespace JsonRules.Schema

/-- How deep subschemas may lie in one another, and what a pattern may take. -/
structure Limits where
  depth : Nat
  pattern : PatternLimits
  deriving DecidableEq, Repr

def Limits.default : Limits := ⟨100, .default⟩

abbrev SubCompiler := SchemaPath → Value → Except SchemaError Rule

def kindOf (path : SchemaPath) (name : String) : Except SchemaError Kind :=
  match Kind.ofName? name with
  | some kind => .ok kind
  | none => .error ⟨path, .unknownType name⟩

/-- The kinds that a list of types names, after those that have been read. -/
def kindsOf (path : SchemaPath) : List Kind → List Value → Except SchemaError (List Kind)
  | read, [] => .ok read
  | read, .str name :: rest => do
    let here := path.index read.length
    let kind ← kindOf here name
    if kind ∈ read then .error ⟨here, .duplicateType kind⟩ else kindsOf path (read ++ [kind]) rest
  | read, _ => .error ⟨path.index read.length, .typeNotString⟩

/-- The rule of a list of types: one for each of them, of which one has to hold. -/
def anyKind (path : SchemaPath) (kinds : List Kind) : Rule :=
  .anyOf path (kinds.mapIdx fun i kind => .check (path.index i) (.type kind))

def typeRule (path : SchemaPath) : Value → Except SchemaError Rule
  | .str name => do
    let kind ← kindOf (path.key .type) name
    return .check (path.key .type) (.type kind)
  | .arr [] => .error ⟨path.key .type, .emptyTypes⟩
  | .arr names => do
    let kinds ← kindsOf (path.key .type) [] names
    return anyKind (path.key .anyOf) kinds
  | _ => .error ⟨path.key .type, .typeShape⟩

def enumCheck : Value → Except Defect Check
  | .arr values => .ok (.enumeration values)
  | _ => .error .enumShape

def size? : Value → Option Nat
  | .num n => n.toSize?
  | _ => none

def multipleOfCheck (v : Value) : Except Defect Check :=
  match size? v with
  | some 0 => .error .notPositive
  | some divisor => .ok (.multipleOf divisor)
  | none => .error .notPositive

def rangeCheck (bound : RangeBound) : Value → Except Defect Check
  | .num border => .ok (.range bound border)
  | _ => .error (.notNumber bound)

def lengthCheck (bound : SizeBound) (v : Value) : Except Defect Check :=
  match size? v with
  | some limit => .ok (.length bound limit)
  | none => .error (.notSize (.length bound))

def arraySizeCheck (bound : SizeBound) (v : Value) : Except Defect Check :=
  match size? v with
  | some limit => .ok (.arraySize bound limit)
  | none => .error (.notSize (.arraySize bound))

def patternCheck (limits : PatternLimits) : Value → Except Defect Check
  | .str source =>
    match Pattern.compile limits source with
    | .ok p => .ok (.pattern p)
    | .error e => .error (.invalidPattern e)
  | _ => .error .patternShape

/-- The check of `uniqueItems`, which `false` turns off. -/
def uniqueItemsCheck? : Value → Except Defect (Option Check)
  | .bool true => .ok (some .uniqueItems)
  | .bool false => .ok none
  | _ => .error .uniqueItemsShape

/-- The rules of subschemas that are listed from an index on. -/
def compileEach (compile : SubCompiler) (path : SchemaPath) :
    Nat → List Value → Except SchemaError (List Rule)
  | _, [] => .ok []
  | i, schema :: rest => do
    let rule ← compile (path.index i) schema
    let rules ← compileEach compile path (i + 1) rest
    return rule :: rules

def itemsRule (compile : SubCompiler) (path : SchemaPath) : Value → Except SchemaError Rule
  | .obj fields => do return .itemsUniform path (← compile path (.obj fields))
  | .arr schemas => do return .itemsPositional path (← compileEach compile path 0 schemas)
  | _ => .error ⟨path, .itemsShape⟩

/-- The rule of `additionalItems` at its own path, for a schema with the given `items`. Unless
these list schemas there are no additional items. -/
def additionalItemsRule? (compile : SubCompiler) (path : SchemaPath) (items : Option Value) :
    Value → Except SchemaError (Option Rule)
  | .obj fields =>
    match items with
    | some (.arr schemas) => do
      return some (.additionalItems path schemas.length (← compile path (.obj fields)))
    | _ => .ok none
  | _ => .error ⟨path, .additionalItemsShape⟩

def containsRule (compile : SubCompiler) (path : SchemaPath) : Value → Except SchemaError Rule
  | .obj fields => do return .contains path (← compile path (.obj fields))
  | _ => .error ⟨path, .containsShape⟩

def checkRule (path : SchemaPath) : Except Defect Check → Except SchemaError (Option Rule)
  | .ok c => .ok (some (.check path c))
  | .error d => .error ⟨path, d⟩

def valueRule (limits : PatternLimits) (compile : SubCompiler) (path : SchemaPath)
    (fields : Fields) (v : Value) (k : Keyword) : Except SchemaError (Option Rule) :=
  let here := path.key k
  match k with
  | .type => some <$> typeRule path v
  | .enum => checkRule here (enumCheck v)
  | .const => .ok (some (.check here (.const v)))
  | .multipleOf => checkRule here (multipleOfCheck v)
  | .range bound => checkRule here (rangeCheck bound v)
  | .length bound => checkRule here (lengthCheck bound v)
  | .pattern => checkRule here (patternCheck limits v)
  | .items => some <$> itemsRule compile here v
  | .additionalItems =>
    additionalItemsRule? compile here (Fields.get? Keyword.items.name fields) v
  | .arraySize bound => checkRule here (arraySizeCheck bound v)
  | .uniqueItems =>
    match uniqueItemsCheck? v with
    | .ok none => .ok none
    | .ok (some c) => checkRule here (.ok c)
    | .error d => checkRule here (.error d)
  | .contains => some <$> containsRule compile here v
  | .allOf => .ok none
  | .anyOf => .ok none

def keywordRule (limits : PatternLimits) (compile : SubCompiler) (path : SchemaPath)
    (fields : Fields) (k : Keyword) : Except SchemaError (Option Rule) :=
  match Fields.get? k.name fields with
  | none => .ok none
  | some v => valueRule limits compile path fields v k

def keywordRules (limits : PatternLimits) (compile : SubCompiler) (path : SchemaPath)
    (fields : Fields) : List Keyword → Except SchemaError (List Rule)
  | [] => .ok []
  | k :: rest => do
    let rule? ← keywordRule limits compile path fields k
    let rules ← keywordRules limits compile path fields rest
    return rule?.toList ++ rules

/-- Compiles a schema below which one level less than the given number may lie. -/
def compileAt (limits : Limits) : Nat → SchemaPath → Value → Except SchemaError Rule
  | 0, path, _ => .error ⟨path, .tooDeep limits.depth⟩
  | levels + 1, path, .obj fields => do
    let compile := compileAt limits levels
    let rules ← keywordRules limits.pattern compile path fields Keyword.inOrder
    return Rule.all path rules
  | _ + 1, path, _ => .error ⟨path, .notObject⟩

def compile (limits : Limits) (root : String) (schema : Value) : Except SchemaError Rule :=
  compileAt limits (limits.depth + 1) (.ofRoot root) schema

end JsonRules.Schema
