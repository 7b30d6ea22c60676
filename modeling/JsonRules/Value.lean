import JsonRules.Number

/-!
# JSON values

An object is the list of its members. `Fields.insert` keeps such a list sorted by key, in
code point order, with one member for each key; `Value.Ordered` says that every object in a
value is such a list.
-/

namespace JsonRules

inductive Value where
  | null
  | bool (b : Bool)
  | num (n : Number)
  | str (s : String)
  | arr (items : List Value)
  | obj (fields : List (String × Value))
  deriving Inhabited

abbrev Fields := List (String × Value)

namespace Fields

def get? (key : String) : Fields → Option Value
  | [] => none
  | (k, v) :: rest => if k = key then some v else get? key rest

theorem mem_of_get? {key : String} {v : Value} {fields : Fields} (h : get? key fields = some v) :
    (key, v) ∈ fields := by
  induction fields with
  | nil => cases h
  | cons m rest ih =>
    obtain ⟨k, x⟩ := m
    rw [get?] at h
    split at h
    · next hk => rw [hk, Option.some.inj h]; exact List.mem_cons_self
    · exact List.mem_cons_of_mem _ (ih h)

theorem sizeOf_get?_lt {key : String} {v : Value} {fields : Fields}
    (h : get? key fields = some v) : sizeOf v < sizeOf (Value.obj fields) := by
  have hmem := List.sizeOf_lt_of_mem (mem_of_get? h)
  simp only [Prod.mk.sizeOf_spec, Value.obj.sizeOf_spec] at hmem ⊢
  omega

theorem sizeOf_mem_get?_lt {key : String} {items : List Value} {v : Value} {fields : Fields}
    (h : get? key fields = some (.arr items)) (hv : v ∈ items) :
    sizeOf v < sizeOf (Value.obj fields) := by
  have hmem := List.sizeOf_lt_of_mem hv
  have hget := sizeOf_get?_lt h
  simp only [Value.arr.sizeOf_spec] at hget
  omega

def insert (key : String) (value : Value) : Fields → Fields
  | [] => [(key, value)]
  | (k, v) :: rest =>
    if key < k then (key, value) :: (k, v) :: rest
    else if k = key then (key, value) :: rest
    else (k, v) :: insert key value rest

/-- The object built by setting the given members in turn; the last one of a key stays. -/
def ofList (members : List (String × Value)) : Fields :=
  members.foldl (fun fields m => insert m.1 m.2 fields) []

/-- The keys strictly increase. -/
def Sorted (fields : Fields) : Prop := (fields.map Prod.fst).Pairwise (· < ·)

end Fields

namespace Value

mutual

/-- Every object in the value lists its members in strictly increasing key order. -/
def Ordered : Value → Prop
  | arr items => OrderedItems items
  | obj fields => Fields.Sorted fields ∧ OrderedFields fields
  | _ => True

def OrderedItems : List Value → Prop
  | [] => True
  | v :: rest => v.Ordered ∧ OrderedItems rest

def OrderedFields : List (String × Value) → Prop
  | [] => True
  | (_, v) :: rest => v.Ordered ∧ OrderedFields rest

end

mutual

def decideOrdered : (v : Value) → Decidable v.Ordered
  | null | bool _ | num _ | str _ => .isTrue trivial
  | arr items => decideOrderedItems items
  | obj fields =>
    have := decideOrderedFields fields
    inferInstanceAs (Decidable ((fields.map Prod.fst).Pairwise (· < ·) ∧ OrderedFields fields))

def decideOrderedItems : (items : List Value) → Decidable (OrderedItems items)
  | [] => .isTrue trivial
  | v :: rest =>
    have := v.decideOrdered
    have := decideOrderedItems rest
    inferInstanceAs (Decidable (v.Ordered ∧ OrderedItems rest))

def decideOrderedFields : (fields : List (String × Value)) → Decidable (OrderedFields fields)
  | [] => .isTrue trivial
  | (_, v) :: rest =>
    have := v.decideOrdered
    have := decideOrderedFields rest
    inferInstanceAs (Decidable (v.Ordered ∧ OrderedFields rest))

end

instance : DecidablePred Ordered := decideOrdered

def field? (key : String) : Value → Option Value
  | obj fields => Fields.get? key fields
  | _ => none

end Value

/-- A value whose objects list their members by key, as JSON text gives it. -/
abbrev Json := { v : Value // v.Ordered }

end JsonRules
