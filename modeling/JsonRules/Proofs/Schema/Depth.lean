import JsonRules.Proofs.Schema.Defects
import JsonRules.Proofs.Schema.Transfer
import JsonRules.Proofs.Schema.Visits

/-!
# Raised limits

What compiles under some limits compiles to the same tree under higher ones. A schema that compiles
under some depth fails under another one exactly if it holds a schema that lies too deep, and then
at the first of these in the order of compilation: nothing else is wrong with it.
-/

namespace JsonRules.Schema

/-- The errors of the schemas at a path that have no level left, in their order. -/
def depthErrors (limit levels : Nat) (path : SchemaPath) (schema : Value) : List SchemaError :=
  ((visits schema).filter fun steps => levels ≤ depthOf steps).map fun steps =>
    ⟨⟨path.root, path.steps ++ steps⟩, .tooDeep limit⟩

theorem depthErrors_zero (limit : Nat) (path : SchemaPath) (schema : Value) :
    (depthErrors limit 0 path schema).head? = some ⟨path, .tooDeep limit⟩ := by
  obtain ⟨rest, h⟩ := visits_head schema
  rw [depthErrors, h, List.filter_cons_of_pos (by simp), List.map_cons, List.head?_cons,
    List.append_nil]

/-- The errors of a schema that is held, told by the schema that holds it. -/
theorem depthErrors_held (limit levels : Nat) (path : SchemaPath) {fields : Fields} {k : Keyword}
    {m : List PathStep × Value} (hm : m ∈ heldBy fields k) :
    depthErrors limit levels ⟨path.root, path.steps ++ m.1⟩ m.2 =
      (((visits m.2).map (m.1 ++ ·)).filter fun steps => levels + 1 ≤ depthOf steps).map
        fun steps => ⟨⟨path.root, path.steps ++ steps⟩, .tooDeep limit⟩ := by
  have hdepth : ∀ steps, depthOf (m.1 ++ steps) = depthOf steps + 1 := by
    intro steps
    rw [depthOf_append, depthOf_heldBy hm, Nat.add_comm]
  rw [depthErrors, List.filter_map, List.map_map]
  simp only [Function.comp_def, hdepth, Nat.add_le_add_iff_right, List.append_assoc]

theorem depthErrors_obj (limit levels : Nat) (path : SchemaPath) (fields : Fields) :
    depthErrors limit (levels + 1) path (.obj fields) = Keyword.inOrder.flatMap fun k =>
      (heldBy fields k).flatMap fun m =>
        depthErrors limit levels ⟨path.root, path.steps ++ m.1⟩ m.2 := by
  rw [← List.flatMap_assoc, depthErrors, visits_obj, List.filter_cons_of_neg (by simp [depthOf]),
    List.filter_flatMap, List.map_flatMap]
  refine List.flatMap_congr fun m hm => ?_
  obtain ⟨k, -, hk⟩ := List.mem_flatMap.1 hm
  exact (depthErrors_held limit levels path hk).symm

section Reports

variable {limits : PatternLimits} {compile : SubCompiler} {path : SchemaPath} {fields : Fields}
  {found : SchemaPath → Value → List SchemaError}

/-- Nothing is wrong with a keyword but what is wrong with the schemas that it holds, if nothing is
where these compile. -/
theorem reports_held {again : SubCompiler} {k : Keyword} (hk : k ∈ Keyword.inOrder)
    {rule? : Option Rule} (hok : keywordRule limits again path fields k = .ok rule?)
    (sub : ∀ m ∈ heldBy fields k, Reports (compile ⟨path.root, path.steps ++ m.1⟩ m.2)
      (found ⟨path.root, path.steps ++ m.1⟩ m.2)) :
    Reports (keywordRule limits compile path fields k)
      ((heldBy fields k).flatMap fun m => found ⟨path.root, path.steps ++ m.1⟩ m.2) := by
  by_cases hdesc : (PathStep.keyword k).descends = true
  · cases hget : Fields.get? k.name fields with
    | none => rw [keywordRule_of_none hget, heldBy_of_none hget]; rfl
    | some v =>
      rw [keywordRule_of_some hget] at hok ⊢
      have hgives : Gives limits (fun _ _ _ => True) path fields k v rule? :=
        valueRule_ok (fun _ _ _ _ => trivial) hk hok
      cases hgives with
      | @items members =>
        simp only [heldBy, hget, List.forall_mem_singleton] at sub
        simp only [heldBy, hget, List.flatMap_singleton]
        exact sub.bind_pure.map
      | @places schemas =>
        simp only [heldBy, hget, List.forall_mem_map] at sub
        simp only [heldBy, hget, List.flatMap_map]
        have hplace : ∀ i s, schemas[i]? = some s →
            Reports (compile ((path.key .items).index (0 + i)) s)
              (found ((path.key .items).index (0 + i)) s) := by
          intro i s hs
          rw [Nat.zero_add, SchemaPath.index, SchemaPath.key, List.append_assoc]
          exact sub (s, i) (List.mk_mem_zipIdx_iff_getElem?.2 hs)
        have heach := reports_compileEach (fun s p => found p s) _ schemas 0 hplace
        simp only [SchemaPath.index, SchemaPath.key, List.append_assoc] at heach
        exact heach.bind_pure.map
      | @additionalItems members schemas _ items =>
        simp only [heldBy, hget, items, List.forall_mem_singleton] at sub
        simp only [heldBy, hget, items, List.flatMap_singleton, valueRule, additionalItemsRule?]
        exact sub.bind_pure
      | noAdditionalItems items => simp [heldBy, hget, valueRule, additionalItemsRule?, Reports]
      | @contains members =>
        simp only [heldBy, hget, List.forall_mem_singleton] at sub
        simp only [heldBy, hget, List.flatMap_singleton]
        exact sub.bind_pure.map
      | _ => exact absurd hdesc Bool.false_ne_true
  · rw [keywordRule_of_not_descends hdesc compile again, hok, heldBy_of_not_descends hdesc]
    rfl

end Reports

/-- Where a schema compiles at some level, only those that lie too deep are refused at another. -/
theorem reports_depthErrors {limits other : Limits} (hpattern : limits.pattern = other.pattern) :
    ∀ {levels more : Nat} {path : SchemaPath} {schema : Value} {tree : Rule},
      compileAt other more path schema = .ok tree →
        Reports (compileAt limits levels path schema)
          (depthErrors limits.depth levels path schema) := by
  intro levels
  induction levels with
  | zero =>
    intro more path schema tree _
    exact depthErrors_zero limits.depth path schema
  | succ levels ih =>
    intro more path schema tree h
    cases more with
    | zero => cases h
    | succ more =>
      cases schema with
      | obj fields =>
        obtain ⟨-, heach⟩ := compileAt_parts h
        rw [depthErrors_obj]
        refine (reports_keywordRules _ fun k hk => ?_).bind_pure
        have hrule := heach k hk
        rw [← hpattern] at hrule
        exact reports_held hk hrule fun m hm => ih (exists_compiled hk hrule hm).choose_spec
      | _ => cases h

/-- The first error of a whole schema is that of the first schema that lies too deep. -/
theorem head?_depthErrors (depth : Nat) (root : String) (schema : Value) :
    (depthErrors depth (depth + 1) (.ofRoot root) schema).head? =
      ((visits schema).find? fun steps => depth < depthOf steps).map fun steps =>
        ⟨⟨root, steps⟩, .tooDeep depth⟩ := by
  rw [depthErrors, List.head?_map, List.head?_filter]
  rfl

/-- A schema that compiles under some depth has no other error under another one. -/
theorem compile_eq_error_iff {limits : Limits} {root : String} {schema : Value} {tree : Rule}
    (h : compile limits root schema = .ok tree) (depth : Nat) (e : SchemaError) :
    compile ⟨depth, limits.pattern⟩ root schema = .error e ↔
      ∃ steps, (visits schema).find? (fun steps => depth < depthOf steps) = some steps ∧
        e = ⟨⟨root, steps⟩, .tooDeep depth⟩ := by
  have hpattern : Limits.pattern ⟨depth, limits.pattern⟩ = limits.pattern := rfl
  have hreports : Reports (compile ⟨depth, limits.pattern⟩ root schema)
      (depthErrors depth (depth + 1) (.ofRoot root) schema) := reports_depthErrors hpattern h
  rw [hreports.error_iff, head?_depthErrors, Option.map_eq_some_iff]
  exact exists_congr fun _ => and_congr_right fun _ => eq_comm

theorem exists_tooDeep_iff {schema : Value} {depth : Nat} :
    (∃ steps, (visits schema).find? (fun steps => depth < depthOf steps) = some steps) ↔
      ∃ steps sub, Subschema schema steps sub ∧ depth < depthOf steps := by
  rw [← Option.isSome_iff_exists, List.find?_isSome]
  simp only [mem_visits_iff, decide_eq_true_eq, exists_and_right]

/-- Raised limits never hurt. The tree stays the same; and of what compiles under the higher limits
nothing is refused under any depth but the schemas that lie deeper than it, the first of them. -/
theorem compile_mono_limits {limits larger : Limits} (hdepth : limits.depth ≤ larger.depth)
    (hsize : limits.pattern.size ≤ larger.pattern.size)
    (hsteps : limits.pattern.steps = larger.pattern.steps) (root : String) (schema : Value) :
    (∀ tree, compile limits root schema = .ok tree → compile larger root schema = .ok tree) ∧
    (∀ e, compile larger root schema = .error e → ∃ e', compile limits root schema = .error e') ∧
    ∀ tree, compile larger root schema = .ok tree → ∀ depth,
      ((∃ e, compile ⟨depth, larger.pattern⟩ root schema = .error e) ↔
        ∃ steps sub, Subschema schema steps sub ∧ depth < depthOf steps) ∧
      ∀ e, compile ⟨depth, larger.pattern⟩ root schema = .error e ↔
        ∃ steps, (visits schema).find? (fun steps => depth < depthOf steps) = some steps ∧
          e = ⟨⟨root, steps⟩, .tooDeep depth⟩ := by
  have hraised : ∀ tree, compile limits root schema = .ok tree →
      compile larger root schema = .ok tree :=
    fun tree h => compileAt_larger h hsize hsteps (Nat.succ_le_succ hdepth)
  refine ⟨hraised, fun e he => ?_, fun tree htree depth => ⟨?_, compile_eq_error_iff htree depth⟩⟩
  · cases h : compile limits root schema with
    | ok tree => rw [hraised tree h] at he; cases he
    | error e' => exact ⟨e', rfl⟩
  · rw [← exists_tooDeep_iff]
    constructor
    · rintro ⟨e, he⟩
      obtain ⟨steps, hfirst, -⟩ := (compile_eq_error_iff htree depth e).1 he
      exact ⟨steps, hfirst⟩
    · rintro ⟨steps, hfirst⟩
      exact ⟨_, (compile_eq_error_iff htree depth _).2 ⟨steps, hfirst, rfl⟩⟩

/-- A list of any item and of an array of arrays, which items that hold something follow. -/
def nestedArrays : Value := .obj [
  ("additionalItems", .obj [("contains", .obj [])]),
  ("items", .arr [.obj [], .obj [("items", .obj [("type", .str "array")])]])]

theorem compile_nestedArrays :
    (∃ tree, compile ⟨2, .default⟩ "root" nestedArrays = .ok tree ∧
      compile .default "root" nestedArrays = .ok tree) ∧
    compile ⟨1, .default⟩ "root" nestedArrays =
      .error ⟨⟨"root", [.keyword .items, .index 1, .keyword .items]⟩, .tooDeep 1⟩ := by
  have hdepth : Limits.depth ⟨2, .default⟩ ≤ Limits.default.depth := by decide
  have hraised := compile_mono_limits hdepth (Nat.le_refl _) rfl "root" nestedArrays
  have htree := hraised.1 _ rfl
  exact ⟨⟨_, rfl, htree⟩, ((hraised.2.2 _ htree 1).2 _).2 ⟨_, by decide +kernel, rfl⟩⟩

example : visits nestedArrays = [[], [.keyword .items, .index 0], [.keyword .items, .index 1],
    [.keyword .items, .index 1, .keyword .items], [.keyword .additionalItems],
    [.keyword .additionalItems, .keyword .contains]] := by
  decide +kernel

end JsonRules.Schema
