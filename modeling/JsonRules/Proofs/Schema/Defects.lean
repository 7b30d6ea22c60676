import JsonRules.Proofs.Schema.Derivation
import JsonRules.Proofs.Value.Structure
import JsonRules.Schema.Defects

/-!
# The first defect

Compilation stops at the first of all defects that a schema has. `Reports` relates the result of a
part of compilation to the defects of what it looks at; each way in which compilation goes on to
the next part carries it over.
-/

namespace JsonRules.Schema

/-- The result is the first defect, or success if there is none. -/
def Reports {α : Type} (x : Except SchemaError α) (ds : List SchemaError) : Prop :=
  match x with
  | .ok _ => ds = []
  | .error e => ds.head? = some e

section Reports

variable {α β : Type} {x : Except SchemaError α} {ds es : List SchemaError}

theorem Reports.bind {f : α → Except SchemaError β} (h : Reports x ds)
    (hf : ∀ a, x = .ok a → Reports (f a) es) : Reports (x >>= f) (ds ++ es) := by
  cases x with
  | ok a =>
    have hds : ds = [] := h
    rw [hds]
    exact hf a rfl
  | error e =>
    have hds : ds.head? = some e := h
    show (ds ++ es).head? = some e
    rw [List.head?_append, hds, Option.some_or]

theorem Reports.bind_pure {f : α → β} (h : Reports x ds) :
    Reports (x >>= fun a => .ok (f a)) ds := by
  cases x with
  | ok a => exact h
  | error e => exact h

theorem Reports.map {f : α → β} (h : Reports x ds) : Reports (f <$> x) ds := by
  cases x with
  | ok a => exact h
  | error e => exact h

theorem Reports.exists_ok_iff (h : Reports x ds) : (∃ a, x = .ok a) ↔ ds = [] := by
  cases x with
  | ok a => exact ⟨fun _ => h, fun _ => ⟨a, rfl⟩⟩
  | error e =>
    refine ⟨nofun, fun hds => ?_⟩
    rw [Reports, hds] at h
    cases h

theorem Reports.error_iff (h : Reports x ds) {e : SchemaError} :
    x = .error e ↔ ds.head? = some e := by
  cases x with
  | ok a =>
    have hds : ds = [] := h
    rw [hds]
    exact ⟨nofun, nofun⟩
  | error d =>
    have hd : ds.head? = some d := h
    rw [hd, Except.error.injEq, Option.some.injEq]

end Reports

def typeNames (kinds : List Kind) : List Value := kinds.map fun kind => .str kind.name

theorem equal_typeName {kind : Kind} {name : String} :
    (Value.str kind.name).equal (.str name) = true ↔ kind.name = name := by
  rw [Value.equal, beq_iff_eq]

/-- A name is among those before exactly if its kind is. -/
theorem any_typeNames {kinds : List Kind} {kind : Kind} :
    ((typeNames kinds).any fun w => w.equal (.str kind.name)) = true ↔ kind ∈ kinds := by
  rw [typeNames, List.any_map, List.any_eq_true]
  constructor
  · rintro ⟨k, hk, he⟩
    rw [← Kind.name_injective (equal_typeName.1 he)]
    exact hk
  · exact fun h => ⟨kind, h, equal_typeName.2 rfl⟩

theorem memberDefect?_name (read : List Kind) (kind : Kind) :
    memberDefect? (typeNames read) (.str kind.name) =
      if kind ∈ read then some (.duplicateType kind) else none := by
  simp only [memberDefect?, Kind.ofName?_name, any_typeNames]

theorem kindsOf_name (path : SchemaPath) (read : List Kind) (kind : Kind) (rest : List Value) :
    kindsOf path read (.str kind.name :: rest) =
      if kind ∈ read then .error ⟨path.index read.length, .duplicateType kind⟩
      else kindsOf path (read ++ [kind]) rest := by
  rw [kindsOf, kindOf, Kind.ofName?_name]
  rfl

/-- The kinds read so far stand for the members before; none of these has a defect. -/
theorem reports_kindsOf (path : SchemaPath) (names : List Value) : ∀ read : List Kind,
    Reports (kindsOf path read names) ((names.zipIdx read.length).filterMap fun (name, i) =>
      (memberDefect? ((typeNames read ++ names).take i) name).map fun d => ⟨path.index i, d⟩) := by
  induction names with
  | nil => exact fun _ => rfl
  | cons member rest ih =>
    intro read
    have htake : (typeNames read ++ member :: rest).take read.length = typeNames read :=
      List.take_left' (List.length_map _)
    rw [List.zipIdx_cons, List.filterMap_cons]
    simp only [htake]
    cases member with
    | str name =>
      cases hname : Kind.ofName? name with
      | none =>
        rw [kindsOf, kindOf, memberDefect?, hname]
        rfl
      | some kind =>
        obtain rfl := Kind.name_of_ofName? hname
        rw [kindsOf_name, memberDefect?_name]
        by_cases hmem : kind ∈ read
        · rw [if_pos hmem, if_pos hmem]
          rfl
        · rw [if_neg hmem, if_neg hmem]
          have hrest := ih (read ++ [kind])
          rw [List.length_append, typeNames, List.map_append, List.append_assoc] at hrest
          exact hrest
    | _ => rfl

theorem reports_typeRule (path : SchemaPath) (v : Value) :
    Reports (typeRule path v) (typeDefects (path.key .type) v) := by
  cases v with
  | str name =>
    rw [typeRule, typeDefects, kindOf]
    cases Kind.ofName? name <;> rfl
  | arr names =>
    cases names with
    | nil => rfl
    | cons member rest => exact (reports_kindsOf (path.key .type) (member :: rest) []).bind_pure
  | _ => rfl

def refusal? : Except Defect Check → Option Defect
  | .ok _ => none
  | .error d => some d

/-- A check is reported by its keyword if it is refused for what is wrong with the value. -/
theorem reports_checkRule {limits : PatternLimits} {k : Keyword} {v : Value}
    {c : Except Defect Check} (h : refusal? c = valueDefect? limits k v) (path : SchemaPath) :
    Reports (checkRule (path.key k) c)
      ((valueDefect? limits k v).map fun d => (⟨path.key k, d⟩ : SchemaError)).toList := by
  rw [← h]
  cases c <;> rfl

theorem refusal?_enum (limits : PatternLimits) (v : Value) :
    refusal? (enumCheck v) = valueDefect? limits .enum v := by
  cases v <;> rfl

theorem refusal?_multipleOf (limits : PatternLimits) (v : Value) :
    refusal? (multipleOfCheck v) = valueDefect? limits .multipleOf v := by
  cases v with
  | num n =>
    rw [multipleOfCheck, size?, valueDefect?]
    rcases n.toSize? with - | - | size
    · rfl
    · rfl
    · rw [if_pos (by simp)]
      rfl
  | _ => rfl

theorem refusal?_range (limits : PatternLimits) (bound : RangeBound) (v : Value) :
    refusal? (rangeCheck bound v) = valueDefect? limits (.range bound) v := by
  cases v <;> rfl

theorem refusal?_length (limits : PatternLimits) (bound : SizeBound) (v : Value) :
    refusal? (lengthCheck bound v) = valueDefect? limits (.length bound) v := by
  cases v with
  | num n =>
    rw [lengthCheck, size?, valueDefect?]
    cases n.toSize? <;> rfl
  | _ => rfl

theorem refusal?_arraySize (limits : PatternLimits) (bound : SizeBound) (v : Value) :
    refusal? (arraySizeCheck bound v) = valueDefect? limits (.arraySize bound) v := by
  cases v with
  | num n =>
    rw [arraySizeCheck, size?, valueDefect?]
    cases n.toSize? <;> rfl
  | _ => rfl

theorem refusal?_pattern (limits : PatternLimits) (v : Value) :
    refusal? (patternCheck limits v) = valueDefect? limits .pattern v := by
  cases v with
  | str source =>
    rw [patternCheck, valueDefect?]
    cases Pattern.compile limits source <;> rfl
  | _ => rfl

theorem reports_uniqueItems (limits : PatternLimits) (compile : SubCompiler) (path : SchemaPath)
    (fields : Fields) (v : Value) :
    Reports (valueRule limits compile path fields v .uniqueItems)
      ((valueDefect? limits .uniqueItems v).map fun d => ⟨path.key .uniqueItems, d⟩).toList := by
  cases v with
  | bool b => cases b <;> rfl
  | _ => rfl

section Subschemas

variable {compile : SubCompiler} {path : SchemaPath}

theorem reports_compileEach (found : Value → SchemaPath → List SchemaError) (path : SchemaPath)
    (schemas : List Value) : ∀ start : Nat,
    (∀ i s, schemas[i]? = some s →
      Reports (compile (path.index (start + i)) s) (found s (path.index (start + i)))) →
    Reports (compileEach compile path start schemas)
      ((schemas.zipIdx start).flatMap fun (s, i) => found s (path.index i)) := by
  induction schemas with
  | nil => exact fun _ _ => rfl
  | cons s rest ih =>
    intro start h
    have hrest := ih (start + 1) fun i s hs => by
      rw [Nat.add_assoc, Nat.add_comm 1 i]
      exact h (i + 1) s hs
    rw [List.zipIdx_cons, List.flatMap_cons, compileEach]
    exact (h 0 s rfl).bind fun rule _ => hrest.bind_pure

theorem flatMap_attach (found : Value → SchemaPath → List SchemaError) (path : SchemaPath)
    (schemas : List Value) :
    (schemas.attach.zipIdx.flatMap fun (s, i) => found s.1 (path.index i)) =
      schemas.zipIdx.flatMap fun (s, i) => found s (path.index i) := by
  have hmap : schemas.zipIdx = schemas.attach.zipIdx.map (Prod.map Subtype.val id) := by
    rw [← List.zipIdx_map, List.attach_map_subtype_val]
  rw [hmap, List.flatMap_map]
  rfl

theorem reports_places (found : Value → SchemaPath → List SchemaError) (path : SchemaPath)
    (schemas : List Value) (h : ∀ s ∈ schemas, ∀ path, Reports (compile path s) (found s path)) :
    Reports (compileEach compile path 0 schemas)
      (schemas.attach.zipIdx.flatMap fun (s, i) => found s.1 (path.index i)) := by
  rw [flatMap_attach found path]
  exact reports_compileEach found path schemas 0 fun i s hs => h s (List.mem_of_getElem? hs) _

theorem reports_keywordRules {limits : PatternLimits} {fields : Fields}
    {found : Keyword → List SchemaError} (ks : List Keyword)
    (h : ∀ k ∈ ks, Reports (keywordRule limits compile path fields k) (found k)) :
    Reports (keywordRules limits compile path fields ks) (ks.flatMap found) := by
  induction ks with
  | nil => rfl
  | cons k rest ih =>
    have hrest := ih fun k hk => h k (List.mem_cons_of_mem _ hk)
    rw [List.flatMap_cons, keywordRules]
    exact (h k List.mem_cons_self).bind fun rule? _ => hrest.bind_pure

end Subschemas

/-- Compilation at some level reports the first of the defects at the depth of that level. -/
theorem reports_compileAt (limits : Limits) : ∀ levels depth : Nat,
    levels + depth = limits.depth + 1 → ∀ path schema,
    Reports (compileAt limits levels path schema) (defects limits schema path depth) := by
  intro levels
  induction levels with
  | zero =>
    intro depth hdepth path schema
    unfold defects
    rw [if_pos (by omega)]
    rfl
  | succ levels ih =>
    intro depth hdepth path schema
    have hsub := ih (depth + 1) (by omega)
    unfold defects
    rw [if_neg (by omega)]
    cases schema with
    | obj fields =>
      refine (reports_keywordRules _ fun k hk => ?_).bind_pure
      split
      · next hget =>
        rw [keywordRule_of_none hget]
        rfl
      · next v hget =>
        rw [keywordRule_of_some hget]
        cases k with
        | type => exact (reports_typeRule path v).map
        | enum => exact reports_checkRule (refusal?_enum limits.pattern v) path
        | const => rfl
        | multipleOf => exact reports_checkRule (refusal?_multipleOf limits.pattern v) path
        | range bound => exact reports_checkRule (refusal?_range limits.pattern bound v) path
        | length bound => exact reports_checkRule (refusal?_length limits.pattern bound v) path
        | pattern => exact reports_checkRule (refusal?_pattern limits.pattern v) path
        | items =>
          cases v with
          | obj members => exact (hsub (path.key .items) (.obj members)).bind_pure.map
          | arr schemas =>
            have h := reports_places (fun s p => defects limits s p (depth + 1)) (path.key .items)
              schemas fun s _ p => hsub p s
            exact h.bind_pure.map
          | _ => rfl
        | additionalItems =>
          cases v with
          | obj members =>
            have h := hsub (path.key .additionalItems) (.obj members)
            simp only [valueRule, additionalItemsRule?]
            cases hitems : Fields.get? Keyword.items.name fields with
            | none => rfl
            | some items =>
              cases items with
              | arr schemas => exact h.bind_pure
              | _ => rfl
          | _ => rfl
        | arraySize bound =>
          exact reports_checkRule (refusal?_arraySize limits.pattern bound v) path
        | uniqueItems => exact reports_uniqueItems limits.pattern _ path fields v
        | contains =>
          cases v with
          | obj members => exact (hsub (path.key .contains) (.obj members)).bind_pure.map
          | _ => rfl
        | allOf => exact absurd hk (by decide)
        | anyOf => exact absurd hk (by decide)
    | _ => rfl

/-- The error is one of a part of the schema at the path, and its path leads to that part. -/
def Locates (limits : Limits) (schema : Value) (path : SchemaPath) (depth : Nat)
    (e : SchemaError) : Prop :=
  ∃ steps w, e.path = ⟨path.root, path.steps ++ steps⟩ ∧ schema.follow? steps = some w ∧
    e.defect.Offends limits depth steps w

section Locates

variable {limits : Limits} {fields : Fields} {path : SchemaPath} {depth : Nat} {k : Keyword}
  {given : Value} {e : SchemaError}

theorem locates_here {schema : Value} {d : Defect} (h : d.Offends limits depth [] schema) :
    Locates limits schema path depth ⟨path, d⟩ :=
  ⟨[], schema, by rw [List.append_nil], rfl, h⟩

theorem offends_descend {steps : List PathStep} {w : Value} {d : Defect} (step : PathStep)
    (hstep : step.descends = true) (h : d.Offends limits (depth + 1) steps w) :
    d.Offends limits depth (step :: steps) w := by
  cases d with
  | tooDeep limit =>
    obtain ⟨hlimit, hcount⟩ := h
    refine ⟨hlimit, ?_⟩
    rw [List.countP_cons_of_pos hstep]
    omega
  | _ => exact h

theorem offends_stay {steps : List PathStep} {w : Value} {d : Defect} (step : PathStep)
    (hstep : ¬step.descends = true) (h : d.Offends limits depth steps w) :
    d.Offends limits depth (step :: steps) w := by
  cases d with
  | tooDeep limit =>
    obtain ⟨hlimit, hcount⟩ := h
    refine ⟨hlimit, ?_⟩
    rwa [List.countP_cons_of_neg hstep]
  | _ => exact h

/-- What is located in a part one step down is located in the whole. -/
theorem Locates.step {schema part : Value} {below : SchemaPath} {level : Nat} (step : PathStep)
    (hbelow : below = ⟨path.root, path.steps ++ [step]⟩)
    (hfollow : ∀ rest, schema.follow? (step :: rest) = part.follow? rest)
    (hoffends : ∀ {steps : List PathStep} {w : Value} {d : Defect},
      d.Offends limits level steps w → d.Offends limits depth (step :: steps) w)
    (h : Locates limits part below level e) : Locates limits schema path depth e := by
  obtain ⟨steps, w, hpath, hpart, hw⟩ := h
  refine ⟨step :: steps, w, ?_, (hfollow steps).trans hpart, hoffends hw⟩
  rw [hpath, hbelow, List.append_assoc]
  rfl

theorem follow?_keyword (hget : Fields.get? k.name fields = some given) (rest : List PathStep) :
    (Value.obj fields).follow? (.keyword k :: rest) = given.follow? rest := by
  rw [Value.follow?, hget, Option.bind_some]

theorem Locates.key (hget : Fields.get? k.name fields = some given)
    (hk : ¬(PathStep.keyword k).descends = true) (h : Locates limits given (path.key k) depth e) :
    Locates limits (.obj fields) path depth e :=
  h.step (.keyword k) rfl (follow?_keyword hget) (offends_stay _ hk)

theorem Locates.descend (hget : Fields.get? k.name fields = some given)
    (hk : (PathStep.keyword k).descends = true)
    (h : Locates limits given (path.key k) (depth + 1) e) :
    Locates limits (.obj fields) path depth e :=
  h.step (.keyword k) rfl (follow?_keyword hget) (offends_descend _ hk)

theorem Locates.place {schemas : List Value} {i : Nat} {s : Value} (hs : schemas[i]? = some s)
    (h : Locates limits s (path.index i) depth e) : Locates limits (.arr schemas) path depth e := by
  refine h.step (.index i) rfl (fun rest => ?_) (offends_stay _ nofun)
  rw [Value.follow?, hs, Option.bind_some]

theorem offends_memberDefect? {before : List Value} {member : Value} {d : Defect}
    (h : memberDefect? before member = some d) : d.Offends limits depth [] member := by
  cases member with
  | str name =>
    simp only [memberDefect?] at h
    split at h
    · next kind hkind =>
      split at h
      · cases h
        rw [← Kind.name_of_ofName? hkind]
        rfl
      · cases h
    · next hkind => cases h; exact ⟨rfl, hkind⟩
  | _ => cases h; exact nofun

theorem locates_typeDefects (he : e ∈ typeDefects path given) :
    Locates limits given path depth e := by
  cases given with
  | str name =>
    simp only [typeDefects] at he
    split at he
    · cases he
    · next hkind =>
      obtain rfl := List.mem_singleton.1 he
      exact locates_here ⟨rfl, Option.not_isSome_iff_eq_none.1 hkind⟩
  | arr names =>
    cases names with
    | nil =>
      obtain rfl := List.mem_singleton.1 he
      exact locates_here rfl
    | cons first rest =>
      obtain ⟨⟨member, i⟩, hmem, he⟩ := List.mem_filterMap.1 he
      obtain ⟨d, hd, rfl⟩ := Option.map_eq_some_iff.1 he
      exact (locates_here (offends_memberDefect? hd)).place (List.mk_mem_zipIdx_iff_getElem?.1 hmem)
  | _ =>
    obtain rfl := List.mem_singleton.1 he
    exact locates_here ⟨nofun, nofun⟩

theorem offends_size {n : Number} {d defect : Defect}
    (h : (if n.toSize?.isSome then none else some defect) = some d) :
    d = defect ∧ ∀ m, Value.num n = .num m → m.toSize? = none := by
  split at h
  · cases h
  · next hsize =>
    cases h
    refine ⟨rfl, fun m hm => ?_⟩
    cases hm
    exact Option.not_isSome_iff_eq_none.1 hsize

theorem offends_valueDefect? {d : Defect} (h : valueDefect? limits.pattern k given = some d) :
    d.Offends limits depth [] given := by
  cases k with
  | enum =>
    cases given with
    | arr values => cases h
    | _ => cases h; exact nofun
  | multipleOf =>
    cases given with
    | num n =>
      simp only [valueDefect?] at h
      split at h
      · cases h
      · next hsize =>
        cases h
        rintro m size hm hs
        cases hm
        rw [hs, Option.any_some, decide_eq_true_iff] at hsize
        omega
    | _ => cases h; exact fun _ _ hm => nomatch hm
  | range bound =>
    cases given with
    | num n => cases h
    | _ => cases h; exact nofun
  | length bound | arraySize bound =>
    cases given with
    | num n =>
      obtain ⟨rfl, hsize⟩ := offends_size h
      exact hsize
    | _ => cases h; exact fun _ hm => nomatch hm
  | pattern =>
    cases given with
    | str source =>
      simp only [valueDefect?] at h
      split at h
      · cases h
      · next e he => cases h; exact ⟨source, rfl, he⟩
    | _ => cases h; exact nofun
  | uniqueItems =>
    cases given with
    | bool b => cases h
    | _ => cases h; exact nofun
  | _ => cases h

end Locates

/-- The path of every defect leads to a value that has it. -/
theorem locates_of_mem_defects (limits : Limits) (schema : Value) : ∀ (path : SchemaPath)
    (depth : Nat), depth ≤ limits.depth + 1 → ∀ e ∈ defects limits schema path depth,
      Locates limits schema path depth e := by
  induction schema using Value.bySize with
  | step schema ih =>
    intro path depth hdepth e he
    unfold defects at he
    split at he
    · next hdeep =>
      obtain rfl := List.mem_singleton.1 he
      refine locates_here ⟨rfl, ?_⟩
      rw [List.countP_nil]
      omega
    next hdeep =>
    have hlevel : depth + 1 ≤ limits.depth + 1 := by omega
    cases schema with
    | obj fields =>
      obtain ⟨k, hk, he⟩ := List.mem_flatMap.1 he
      split at he
      · cases he
      next given hget =>
      have hsub := ih given (Fields.sizeOf_get?_lt hget) (path.key k) (depth + 1) hlevel e
      cases k with
      | type => exact (locates_typeDefects he).key hget Bool.false_ne_true
      | items =>
        cases given with
        | obj members => exact (hsub he).descend hget rfl
        | arr schemas =>
          obtain ⟨⟨s, i⟩, hmem, he⟩ := List.mem_flatMap.1 he
          have hplace : schemas[i]? = some s.1 := by
            have hval := congrArg (Option.map Subtype.val) (List.mk_mem_zipIdx_iff_getElem?.1 hmem)
            rwa [← List.getElem?_map, List.attach_map_subtype_val] at hval
          have hs := ih s.1 (Fields.sizeOf_mem_get?_lt hget s.2) _ (depth + 1) hlevel e he
          exact (hs.place hplace).descend hget rfl
        | _ =>
          obtain rfl := List.mem_singleton.1 he
          refine Locates.descend hget rfl (locates_here ⟨?_, ?_⟩) <;> intro hk <;> cases hk
      | additionalItems =>
        cases given with
        | obj members =>
          simp only at he
          split at he
          · exact (hsub he).descend hget rfl
          · cases he
        | _ =>
          obtain rfl := List.mem_singleton.1 he
          refine Locates.descend hget rfl (locates_here ?_)
          intro hk
          cases hk
      | contains =>
        cases given with
        | obj members => exact (hsub he).descend hget rfl
        | _ =>
          obtain rfl := List.mem_singleton.1 he
          refine Locates.descend hget rfl (locates_here ?_)
          intro hk
          cases hk
      | _ =>
        obtain ⟨d, hd, rfl⟩ := Option.map_eq_some_iff.1 (Option.mem_toList.1 he)
        exact (locates_here (offends_valueDefect? hd)).key hget Bool.false_ne_true
    | _ =>
      obtain rfl := List.mem_singleton.1 he
      refine locates_here ?_
      intro hk
      cases hk

/-- Compilation succeeds exactly if a schema has no defect, and else fails with the first one, whose
path leads to what has it. -/
theorem compile_reports_first_defect (limits : Limits) (root : String) (schema : Value) :
    ((∃ rule, compile limits root schema = .ok rule) ↔
        defects limits schema (.ofRoot root) 0 = []) ∧
      (∀ e, compile limits root schema = .error e ↔
        (defects limits schema (.ofRoot root) 0).head? = some e) ∧
      ∀ e, compile limits root schema = .error e → e.path.root = root ∧
        ∃ w, schema.follow? e.path.steps = some w ∧ e.defect.Offends limits 0 e.path.steps w := by
  have hreports := reports_compileAt limits (limits.depth + 1) 0 rfl (.ofRoot root) schema
  refine ⟨hreports.exists_ok_iff, fun e => hreports.error_iff, fun e he => ?_⟩
  have hmem := List.mem_of_head? (hreports.error_iff.1 he)
  obtain ⟨steps, w, hpath, hfollow, hoffends⟩ :=
    locates_of_mem_defects limits schema (.ofRoot root) 0 (Nat.zero_le _) e hmem
  rw [hpath]
  exact ⟨rfl, w, hfollow, hoffends⟩

/-- A type named twice, and below it a keyword that is defective too. -/
def twiceInteger : Value :=
  .obj [("items", .null), ("type", .arr [.str "integer", .str "integer"])]

theorem compile_twiceInteger :
    (defects .default twiceInteger (.ofRoot "root") 0).head? =
        some ⟨⟨"root", [.keyword .type, .index 1]⟩, .duplicateType .integer⟩ ∧
      ∃ w, twiceInteger.follow? [.keyword .type, .index 1] = some w ∧
        (Defect.duplicateType .integer).Offends .default 0 [.keyword .type, .index 1] w :=
  have h := compile_reports_first_defect .default "root" twiceInteger
  ⟨(h.2.1 ⟨⟨"root", [.keyword .type, .index 1]⟩, .duplicateType .integer⟩).1 rfl,
    (h.2.2 ⟨⟨"root", [.keyword .type, .index 1]⟩, .duplicateType .integer⟩ rfl).2⟩

end JsonRules.Schema
