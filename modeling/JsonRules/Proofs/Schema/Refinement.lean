import JsonRules.Proofs.Check
import JsonRules.Proofs.Number.Multiple
import JsonRules.Proofs.Pattern.Limits
import JsonRules.Proofs.Rule.Search
import JsonRules.Proofs.Schema.Derivation
import JsonRules.Rule.Trace

/-!
# Compilation keeps what a schema says

The rule that a schema is compiled to finds the error that the schema itself, interpreted keyword
by keyword, tells of a value. Both divide a number by what `Number.divisorFor` says. That is another
number than the divisor only where one of magnitude `2^64` or more meets a divisor that no double
holds; everywhere else the rule finds the error that the schema is meant to tell.
-/

namespace JsonRules

section Judgements

theorem SizeBound.admits_eq_holds (bound : SizeBound) : bound.admits = bound.holds := by
  cases bound <;> rfl

theorem Number.isWhole_eq (n : Number) : n.isWhole = n.isIntegral := by
  rw [Bool.eq_iff_iff, isIntegral_iff, isWhole, decide_eq_true_iff, dvd_def]
  exact exists_congr fun i => by rw [Int.mul_comm]

theorem Number.isTimes_iff {n : Number} {divisor : Nat} :
    n.isTimes divisor = true ↔ n.IsMultiple divisor := by
  rw [isTimes, decide_eq_true_iff, dvd_def, IsMultiple]
  exact exists_congr fun i => by rw [Int.mul_comm, Int.mul_assoc]

theorem Number.isMultipleOf_eq (n : Number) (divisor : Nat) :
    n.isMultipleOf divisor = n.isTimes (n.divisorFor divisor) := by
  rw [Bool.eq_iff_iff, isMultipleOf_iff, isTimes_iff]

theorem Kind.accepts_eq (kind : Kind) (v : Value) : kind.accepts v = v.isOfKind kind := by
  cases kind with
  | integer =>
    cases v with
    | num n => exact n.isWhole_eq.symm
    | _ => rfl
  | _ => cases v <;> rfl

end Judgements

namespace Schema

open Number (divisorFor ownDivisor)
open Rule (firstError?_eq somePasses_eq firstPlaceError?_eq error?_all)

theorem error?_anyKind (path : SchemaPath) (kinds : List Kind) (v : Value) (l : Location) :
    (anyKind path kinds).error? v l =
      if kinds.any fun kind => v.isOfKind kind then none
      else some ⟨path, .anyOf, l, .noAlternative⟩ := by
  have hpass : ∀ i kind, ((Rule.check (path.index i) (.type kind)).error? v l).isNone =
      v.isOfKind kind := by
    intro i kind
    rw [Rule.error?, Option.isNone_map, Check.violation?, kind.accepts_eq]
    cases v.isOfKind kind <;> rfl
  rw [anyKind, Rule.error?, somePasses_eq,
    any_mapIdx (p := fun r : Rule => (r.error? v l).isNone) hpass]

theorem error?_types (path : SchemaPath) (kinds : List Kind) (v : Value) (l : Location) :
    (anyKind (path.key .anyOf) kinds).error? v l =
      typeError? path (.arr (kinds.map fun kind => .str kind.name)) v l := by
  rw [error?_anyKind, typeError?, List.any_map]
  congr 3
  funext kind
  rw [Function.comp_apply, Value.isOfType, Kind.ofName?_name, Option.any_some]

/-- Subschemas and their rules tell the same errors. -/
def Agrees (limits : PatternLimits) (path : SchemaPath) (schema : Value) (rule : Rule) : Prop :=
  schema.Ordered → ∀ v l, v.Ordered →
    rule.error? v l = interpret limits divisorFor schema path v l

section Items

variable {limits : PatternLimits} {path : SchemaPath} {schema : Value} {rule : Rule}

/-- Under a schema and its rule the same errors are found in items. -/
theorem findSome?_items (h : Agrees limits path schema rule) (hs : schema.Ordered)
    {items : List (Value × Nat)} (ho : ∀ m ∈ items, m.1.Ordered) (l : Location) :
    (items.findSome? fun (x, i) => rule.error? x (l.push i)) =
      items.findSome? fun (x, i) => interpret limits divisorFor schema path x (l.push i) :=
  findSome?_congr fun m hm => h hs m.1 (l.push m.2) (ho m hm)

theorem any_items (h : Agrees limits path schema rule) (hs : schema.Ordered)
    {items : List (Value × Nat)} (ho : ∀ m ∈ items, m.1.Ordered) (l : Location) :
    (items.any fun (x, i) => (rule.error? x (l.push i)).isNone) =
      items.any fun (x, i) => (interpret limits divisorFor schema path x (l.push i)).isNone :=
  any_congr_mem fun m hm => congrArg Option.isNone (h hs m.1 (l.push m.2) (ho m hm))

theorem findSome?_places {schemas : List Value} {rules : List Rule}
    (hlen : rules.length = schemas.length)
    (sub : ∀ (i : Nat) (hs : i < schemas.length) (hr : i < rules.length),
      Agrees limits (path.index i) schemas[i] rules[i])
    (hs : ∀ s ∈ schemas, s.Ordered) {items : List Value} (ho : ∀ x ∈ items, x.Ordered)
    (l : Location) :
    ((rules.zip items).zipIdx.findSome? fun ((r, x), i) => r.error? x (l.push i)) =
      (schemas.attach.zip items).zipIdx.findSome? fun ((s, x), i) =>
        interpret limits divisorFor s.1 (path.index i) x (l.push i) := by
  refine findSome?_zip_congr (f := fun r x i => r.error? x (l.push i))
    (g := fun s x i => interpret limits divisorFor s.1 (path.index i) x (l.push i)) 0
    (hlen.trans List.length_attach.symm) fun i hr hi x hx => ?_
  have his : i < schemas.length := by rwa [List.length_attach] at hi
  rw [List.getElem_attach, Nat.zero_add]
  exact sub i his hr (hs _ (List.getElem_mem his)) x _ (ho x hx)

theorem ordered_zipIdx {items : List Value} (h : (Value.arr items).Ordered) :
    ∀ m ∈ items.zipIdx, m.1.Ordered :=
  fun m hm => Value.ordered_arr.1 h m.1 (List.fst_mem_of_mem_zipIdx hm)

theorem error?_itemsUniform (h : Agrees limits path schema rule) (hs : schema.Ordered)
    {items : List Value} (ho : (Value.arr items).Ordered) (l : Location) :
    (Rule.itemsUniform path rule).error? (.arr items) l =
      items.zipIdx.findSome? fun (x, i) =>
        interpret limits divisorFor schema path x (l.push i) := by
  rw [Rule.error?, firstItemError?_eq]
  exact findSome?_items h hs (ordered_zipIdx ho) l

/-- The items from a place on keep their indices. -/
theorem error?_additionalItems (h : Agrees limits path schema rule) (hs : schema.Ordered)
    {items : List Value} (ho : (Value.arr items).Ordered) (offset : Nat) (l : Location) :
    (Rule.additionalItems path offset rule).error? (.arr items) l =
      (items.zipIdx.drop offset).findSome? fun (x, i) =>
        interpret limits divisorFor schema path x (l.push i) := by
  have hdrop := zipIdx_drop items 0 offset
  rw [Nat.zero_add] at hdrop
  rw [Rule.error?, firstItemError?_eq, Value.items, hdrop]
  exact findSome?_items h hs (fun m hm => ordered_zipIdx ho m (List.mem_of_mem_drop hm)) l

theorem error?_contains (h : Agrees limits path schema rule) (hs : schema.Ordered)
    {items : List Value} (ho : (Value.arr items).Ordered) (l : Location) :
    (Rule.contains path rule).error? (.arr items) l =
      if items.zipIdx.any fun (x, i) =>
        (interpret limits divisorFor schema path x (l.push i)).isNone
      then none else some ⟨path, .contains, l, .noneContained⟩ := by
  rw [Rule.error?, someItemPasses_eq, any_items h hs (ordered_zipIdx ho)]

end Items

theorem error?_type (path : SchemaPath) (kind : Kind) (v : Value) (l : Location) :
    (Rule.check (path.key .type) (.type kind)).error? v l =
      typeError? path (.str kind.name) v l := by
  rw [Rule.error?, typeError?, Kind.ofName?_name, Option.bind_some, Check.violation?,
    kind.accepts_eq]
  cases v.isOfKind kind <;> rfl

/-- A check tells how the value breaks its keyword. -/
theorem error?_check {limits : PatternLimits} {c : Check} {k : Keyword} {given v : Value}
    (hk : c.keyword = k) (hc : c.violation? v = violation? limits divisorFor k given v)
    (path : SchemaPath) (l : Location) :
    (Rule.check (path.key k) c).error? v l =
      (violation? limits divisorFor k given v).map fun violation =>
        ⟨path.key k, k, l, violation⟩ := by
  rw [Rule.error?, hk, hc]

theorem violation?_multipleOf {limits : PatternLimits} {n : Number} {divisor : Nat}
    (size : n.toSize? = some divisor) (v : Value) :
    (Check.multipleOf divisor).violation? v =
      violation? limits divisorFor .multipleOf (.num n) v := by
  cases v with
  | num m => rw [violation?, size, Check.violation?, m.isMultipleOf_eq]; rfl
  | _ => rfl

theorem violation?_range {limits : PatternLimits} (bound : RangeBound) (border : Number)
    (v : Value) : (Check.range bound border).violation? v =
      violation? limits divisorFor (.range bound) (.num border) v := by
  cases v with
  | num m => rw [violation?, ← RangeBound.admits_compare]; rfl
  | _ => rfl

theorem violation?_length {limits : PatternLimits} (bound : SizeBound) {n : Number} {limit : Nat}
    (size : n.toSize? = some limit) (v : Value) :
    (Check.length bound limit).violation? v =
      violation? limits divisorFor (.length bound) (.num n) v := by
  cases v with
  | str s => rw [violation?, size, Check.violation?, bound.admits_eq_holds]; rfl
  | _ => rfl

theorem violation?_arraySize {limits : PatternLimits} (bound : SizeBound) {n : Number}
    {limit : Nat} (size : n.toSize? = some limit) (v : Value) :
    (Check.arraySize bound limit).violation? v =
      violation? limits divisorFor (.arraySize bound) (.num n) v := by
  cases v with
  | arr items => rw [violation?, size, Check.violation?, bound.admits_eq_holds]; rfl
  | _ => rfl

theorem violation?_pattern {limits : PatternLimits} {source : String} {p : Pattern}
    (compiled : Pattern.compile limits source = .ok p) (v : Value) :
    (Check.pattern p).violation? v = violation? limits divisorFor .pattern (.str source) v := by
  cases v with
  | str s =>
    obtain rfl := Pattern.source_of_compile compiled
    rw [violation?, compiled]
    rfl
  | _ => rfl

theorem violation?_uniqueItems {limits : PatternLimits} {v : Value} (hv : v.Ordered) :
    Check.uniqueItems.violation? v = violation? limits divisorFor .uniqueItems (.bool true) v := by
  cases v with
  | arr items =>
    rw [violation?, ← Value.firstRepeat?_key (Value.ordered_arr.1 hv)]
    rfl
  | _ => rfl

theorem violation?_enum {limits : PatternLimits} {values : List Value} {v : Value}
    (hvalues : (Value.arr values).Ordered) (hv : v.Ordered) :
    (Check.enumeration values).violation? v = violation? limits divisorFor .enum (.arr values) v :=
  Check.violation?_enumeration (Value.ordered_arr.1 hvalues) hv

theorem violation?_const {limits : PatternLimits} (literal v : Value) :
    (Check.const literal).violation? v = violation? limits divisorFor .const literal v := by
  cases v <;> rfl

/-- Rules of all keywords agree with the schema if those of its subschemas do. -/
theorem agrees_of_gives {limits : PatternLimits} {path : SchemaPath} {fields : Fields}
    {part : Keyword → Option Rule} (hparts : GivesEach limits (Agrees limits) path fields part) :
    Agrees limits path (.obj fields) (Rule.all path (Keyword.inOrder.filterMap part)) := by
  intro ho v l hv
  obtain ⟨-, hfields⟩ := Value.ordered_obj.1 ho
  rw [error?_all, findSome?_filterMap, interpret]
  refine findSome?_congr fun k hk => ?_
  have hpart := hparts k hk
  split
  · next hget => rw [hget] at hpart; simp only at hpart; rw [hpart]; rfl
  · next given hget =>
    rw [hget] at hpart
    simp only at hpart
    have hgiven := hfields (k.name, given) (Fields.mem_of_get? hget)
    generalize part k = rule? at hpart
    cases hpart with
    | type kind => exact error?_type path kind v l
    | types _ _ => exact error?_types path _ v l
    | enum values => exact error?_check rfl (violation?_enum hgiven hv) path l
    | const => exact error?_check rfl (violation?_const given v) path l
    | multipleOf size _ => exact error?_check rfl (violation?_multipleOf size v) path l
    | range bound border => exact error?_check rfl (violation?_range bound border v) path l
    | length bound size => exact error?_check rfl (violation?_length bound size v) path l
    | pattern compiled => exact error?_check rfl (violation?_pattern compiled v) path l
    | items sub =>
      cases v with
      | arr items => exact error?_itemsUniform sub hgiven hv l
      | _ => rfl
    | places length sub =>
      cases v with
      | arr items =>
        rw [Option.bind_some, Rule.error?, firstPlaceError?_eq]
        exact findSome?_places length sub (Value.ordered_arr.1 hgiven) (Value.ordered_arr.1 hv) l
      | _ => simp [Rule.error?, firstPlaceError?_eq, Value.items]
    | additionalItems items sub =>
      simp only [items]
      cases v with
      | arr xs => exact error?_additionalItems sub hgiven hv _ l
      | _ => simp [Rule.error?, Value.items, firstItemError?]
    | noAdditionalItems items =>
      dsimp only
      split
      · next schemas xs hitems => exact absurd hitems (items schemas)
      · rfl
    | arraySize bound size => exact error?_check rfl (violation?_arraySize bound size v) path l
    | uniqueItems => exact error?_check rfl (violation?_uniqueItems hv) path l
    | notUniqueItems => cases v <;> rfl
    | contains sub =>
      cases v with
      | arr items => exact error?_contains sub hgiven hv l
      | _ => rfl

section Divisors

/-- The number is the value itself or stands in it as an item, however deep. -/
inductive HasNumber (n : Number) : Value → Prop
  | self : HasNumber n (.num n)
  | item {items : List Value} {v : Value} (mem : v ∈ items) (below : HasNumber n v) :
      HasNumber n (.arr items)

/-- The number is a divisor in the schema or in one that lies in it. -/
def HasDivisor (schema : Value) (divisor : Nat) : Prop :=
  ∃ steps fields n, Subschema schema steps (.obj fields) ∧
    Fields.get? Keyword.multipleOf.name fields = some (.num n) ∧ n.toSize? = some divisor

/-- The two divide the numbers in a value alike by the divisors in a schema. -/
def Alike (f g : Number → Nat → Nat) (schema v : Value) : Prop :=
  ∀ n d, HasNumber n v → HasDivisor schema d → f n d = g n d

variable {limits : PatternLimits} {f g : Number → Nat → Nat} {fields : Fields}
  {schema given v : Value} {d : Nat}

theorem HasDivisor.obj (h : HasDivisor given d) : ∃ members, given = .obj members := by
  obtain ⟨steps, held, n, hsub, -⟩ := h
  cases hsub <;> exact ⟨_, rfl⟩

theorem HasDivisor.mono (hsub : ∀ {steps : List PathStep} {held : Fields},
    Subschema given steps (.obj held) → ∃ steps, Subschema schema steps (.obj held))
    (h : HasDivisor given d) : HasDivisor schema d := by
  obtain ⟨steps, held, n, hbelow, hn⟩ := h
  obtain ⟨steps, hbelow⟩ := hsub hbelow
  exact ⟨steps, held, n, hbelow, hn⟩

theorem HasDivisor.items (hgiven : Fields.get? Keyword.items.name fields = some given)
    (h : HasDivisor given d) : HasDivisor (.obj fields) d := by
  obtain ⟨members, rfl⟩ := h.obj
  exact h.mono fun hsub => ⟨_, .items hgiven hsub⟩

theorem HasDivisor.place {schemas : List Value}
    (hgiven : Fields.get? Keyword.items.name fields = some (.arr schemas)) (hs : schema ∈ schemas)
    (h : HasDivisor schema d) : HasDivisor (.obj fields) d := by
  obtain ⟨i, hi⟩ := List.mem_iff_getElem?.1 hs
  exact h.mono fun hsub => ⟨_, .place hgiven hi hsub⟩

theorem HasDivisor.additionalItems {schemas : List Value}
    (hitems : Fields.get? Keyword.items.name fields = some (.arr schemas))
    (hgiven : Fields.get? Keyword.additionalItems.name fields = some given)
    (h : HasDivisor given d) : HasDivisor (.obj fields) d := by
  obtain ⟨members, rfl⟩ := h.obj
  exact h.mono fun hsub => ⟨_, .additionalItems hitems hgiven hsub⟩

theorem HasDivisor.contains (hgiven : Fields.get? Keyword.contains.name fields = some given)
    (h : HasDivisor given d) : HasDivisor (.obj fields) d := by
  obtain ⟨members, rfl⟩ := h.obj
  exact h.mono fun hsub => ⟨_, .contains hgiven hsub⟩

theorem Alike.item {items : List Value} {x : Value} (h : Alike f g (.obj fields) (.arr items))
    (hx : x ∈ items) (hsub : ∀ d, HasDivisor given d → HasDivisor (.obj fields) d) :
    Alike f g given x :=
  fun n d hn hd => h n d (.item hx hn) (hsub d hd)

/-- Only numbers under `multipleOf` are divided. -/
theorem violation?_alike {k : Keyword} (h : Alike f g (.obj fields) v)
    (hgiven : Fields.get? k.name fields = some given) :
    violation? limits f k given v = violation? limits g k given v := by
  unfold violation?
  split
  case h_3 divisor n =>
    refine Option.bind_congr fun d hd => ?_
    rw [h n d .self ⟨[], fields, divisor, .self _, hgiven, hd⟩]
  all_goals simp only

/-- Where all divisions are alike, a schema says the same of a value. -/
theorem interpret_congr (schema : Value) (path : SchemaPath) (v : Value) (l : Location)
    (h : Alike f g schema v) :
    interpret limits f schema path v l = interpret limits g schema path v l := by
  match schema with
  | .obj fields =>
    rw [interpret, interpret]
    refine findSome?_congr fun k _ => ?_
    split
    · rfl
    next given hget =>
    cases k with
    | type => rfl
    | items =>
      cases v with
      | arr items =>
        cases given with
        | obj members =>
          refine findSome?_congr fun m hm => ?_
          have hx := List.fst_mem_of_mem_zipIdx hm
          exact interpret_congr _ _ _ _ (h.item hx fun d => .items hget)
        | arr schemas =>
          refine findSome?_congr fun m hm => ?_
          have hx := (List.of_mem_zip (List.fst_mem_of_mem_zipIdx hm)).2
          exact interpret_congr _ _ _ _ (h.item hx fun d => .place hget m.1.1.2)
        | _ => rfl
      | _ => cases given <;> rfl
    | additionalItems =>
      dsimp only
      split
      · next schemas items hitems =>
        refine findSome?_congr fun m hm => ?_
        have hx := List.fst_mem_of_mem_zipIdx (List.mem_of_mem_drop hm)
        exact interpret_congr _ _ _ _ (h.item hx fun d => .additionalItems hitems hget)
      · rfl
    | contains =>
      cases v with
      | arr items =>
        have hany : (items.zipIdx.any fun (x, i) => (interpret limits f given
            (path.key .contains) x (l.push i)).isNone) = items.zipIdx.any fun (x, i) =>
              (interpret limits g given (path.key .contains) x (l.push i)).isNone := by
          refine any_congr_mem fun m hm => congrArg Option.isNone ?_
          have hx := List.fst_mem_of_mem_zipIdx hm
          exact interpret_congr _ _ _ _ (h.item hx fun d => .contains hget)
        simp only [hany]
      | _ => rfl
    | _ => dsimp only; rw [violation?_alike h hget]
  | .null | .bool _ | .num _ | .str _ | .arr _ => simp only [interpret]
termination_by sizeOf schema
decreasing_by
  · exact Fields.sizeOf_mem_get?_lt ‹_› m.1.1.2
  · exact Fields.sizeOf_get?_lt ‹_›
  · exact Fields.sizeOf_get?_lt ‹_›
  · exact Fields.sizeOf_get?_lt ‹_›

end Divisors

/-- Compiling a schema and evaluating its rule is interpreting the schema, with the number that each
number is really divided by; that is the divisor of the schema unless a number of magnitude `2^64`
or more meets a divisor that no double holds. -/
theorem evaluate_eq_interpret (limits : Limits) (root : String) (schema : Json) (rule : Rule)
    (h : compile limits root schema.1 = .ok rule) (v : Json) (l : Location) :
    rule.evaluate v.1 l =
        (interpret limits.pattern divisorFor schema.1 (.ofRoot root) v.1 l).elim (.ok ()) .error ∧
      ((∀ n d, HasNumber n v.1 → HasDivisor schema.1 d → n.IsSmall ∨ Double.HoldsWhole d) →
        rule.evaluate v.1 l =
          (interpret limits.pattern ownDivisor schema.1 (.ofRoot root) v.1 l).elim (.ok ())
            .error) := by
  have hagree := compileAt_induction (fun _ _ _ hparts => agrees_of_gives hparts) _ _ _ _ h
  have heval : rule.evaluate v.1 l =
      (interpret limits.pattern divisorFor schema.1 (.ofRoot root) v.1 l).elim (.ok ()) .error := by
    rw [Rule.evaluate, hagree schema.2 v.1 l v.2]
    cases interpret limits.pattern divisorFor schema.1 (.ofRoot root) v.1 l <;> rfl
  refine ⟨heval, fun hdiv => ?_⟩
  have halike : Alike divisorFor ownDivisor schema.1 v.1 :=
    fun n d hn hd => Number.divisorFor_eq (hdiv n d hn hd)
  rw [heval, interpret_congr _ _ _ _ halike]

/-- A list of a truth value that multiples of three may follow. -/
def flagThenTriples : Json := ⟨.obj [
  ("additionalItems", .obj [("multipleOf", .num (.int 3 (by decide)))]),
  ("items", .arr [.obj [("type", .str "boolean")]])], by decide⟩

def flagAndFour : Json := ⟨.arr [.bool true, .num (.int 4 (by decide))], by decide⟩

theorem interpret_flagAndFour :
    (∃ rule, compile .default "root" flagThenTriples.1 = .ok rule) ∧
      (∀ n d, HasNumber n flagAndFour.1 → HasDivisor flagThenTriples.1 d →
        n.IsSmall ∨ Double.HoldsWhole d) ∧
      (interpret PatternLimits.default ownDivisor flagThenTriples.1 (.ofRoot "root") flagAndFour.1
        .root).elim (.ok ()) .error =
      Except.error (⟨⟨"root", [.keyword .additionalItems, .keyword .multipleOf]⟩, .multipleOf,
        ⟨[1]⟩, .notMultiple 3⟩ : ValidationError) := by
  have hsmall : ∀ n d, HasNumber n flagAndFour.1 → HasDivisor flagThenTriples.1 d →
      n.IsSmall ∨ Double.HoldsWhole d := by
    rintro n d (_ | ⟨hmem, hn⟩) -
    rcases List.mem_cons.1 hmem with rfl | hmem
    · cases hn
    · rw [List.mem_singleton.1 hmem] at hn
      cases hn
      exact .inl (Number.isSmall_int 4 _)
  exact ⟨⟨_, rfl⟩, hsmall,
    ((evaluate_eq_interpret .default "root" flagThenTriples _ rfl flagAndFour .root).2
      hsmall).symm⟩

/-- The schema `{"multipleOf": 9007199254740993}`. -/
def oddDivisor : Json :=
  ⟨.obj [("multipleOf", .num (.int 0x20000000000001 (by decide)))], by decide⟩

/-- The schema forbids `2^64`, which is no multiple of `2^53 + 1`; its rule passes it. -/
theorem evaluate_oddDivisor :
    ∃ rule, compile .default "root" oddDivisor.1 = .ok rule ∧
      rule.evaluate (.num Number.beyondInt) .root = .ok () ∧
      interpret PatternLimits.default ownDivisor oddDivisor.1 (.ofRoot "root")
        (.num Number.beyondInt) .root =
          some ⟨⟨"root", [.keyword .multipleOf]⟩, .multipleOf, .root,
            .notMultiple 0x20000000000001⟩ := by
  refine ⟨.check ⟨"root", [.keyword .multipleOf]⟩ (.multipleOf 0x20000000000001), rfl, ?_, ?_⟩
  · rw [Rule.evaluate, Rule.error?, Number.holds_beyondInt]
    rfl
  · have hno : Number.beyondInt.isTimes 0x20000000000001 = false :=
      Bool.eq_false_iff.2 fun h => Number.not_isMultiple_beyondInt (Number.isTimes_iff.1 h)
    have hviolation : violation? PatternLimits.default ownDivisor .multipleOf
        (.num (.int 0x20000000000001 (by decide))) (.num Number.beyondInt) =
          some (.notMultiple 0x20000000000001) := by
      simp [violation?, Number.toSize?, ownDivisor, hno]
    rw [oddDivisor, interpret]
    simp [Keyword.inOrder, Keyword.name, Fields.get?, hviolation, SchemaPath.key, SchemaPath.ofRoot]

end Schema

end JsonRules
