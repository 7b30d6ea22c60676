import JsonRules.Proofs.Pattern.Limits
import JsonRules.Proofs.Rule.Map
import JsonRules.Proofs.Schema.Derivation

/-!
# From one compilation to another

Compilation under higher limits, or at another path, gives the same tree but for the paths and
patterns in it. A `Transfer` says what becomes of these; `compileAt_transfer` carries it through
compilation. With the limits the same, failures are carried over as well.
-/

namespace JsonRules

/-- The check where a match may take no fewer steps back than the given number. -/
def Check.raise (steps : Nat) : Check → Check
  | pattern p => pattern (p.raise steps)
  | c => c

theorem Check.raise_of_keyword_ne (steps : Nat) {c : Check} (h : c.keyword ≠ .pattern) :
    c.raise steps = c := by
  cases c with
  | pattern p => exact absurd rfl h
  | _ => rfl

namespace Schema

/-- What becomes of the paths and checks of one compilation in another one. -/
structure Transfer (limits other : Limits) where
  path : SchemaPath → SchemaPath
  check : Check → Check
  path_key (p : SchemaPath) (k : Keyword) : path (p.key k) = (path p).key k
  path_index (p : SchemaPath) (i : Nat) : path (p.index i) = (path p).index i
  /-- Only patterns are changed. -/
  check_else (c : Check) (h : c.keyword ≠ .pattern) : check c = c
  check_pattern {source : String} {p : Pattern} (h : Pattern.compile limits.pattern source = .ok p) :
    ∃ q, check (.pattern p) = .pattern q ∧ Pattern.compile other.pattern source = .ok q
  /-- Failures are carried over. -/
  exact : Prop
  limits_eq (h : exact) : limits = other

namespace Transfer

variable {limits other : Limits} (t : Transfer limits other)

abbrev rule : Rule → Rule := Rule.map t.path t.check

/-- What succeeds succeeds with the result that `m` makes of it, and fails with the error moved. -/
structure Carries {α β : Type} (m : α → β) (x : Except SchemaError α) (y : Except SchemaError β) :
    Prop where
  ok : ∀ {a}, x = .ok a → y = .ok (m a)
  error : t.exact → ∀ {e}, x = .error e → y = .error ⟨t.path e.path, e.defect⟩

namespace Carries

variable {t} {α β γ δ : Type} {m : α → β} {n : γ → δ}

theorem ofOk (m : α → β) (a : α) : t.Carries m (.ok a) (.ok (m a)) :=
  ⟨fun h => by cases h; rfl, fun _ _ h => nomatch h⟩

theorem ofError (m : α → β) (p : SchemaPath) (d : Defect) :
    t.Carries m (.error ⟨p, d⟩) (.error ⟨t.path p, d⟩) :=
  ⟨fun h => (nomatch h), fun _ _ h => by cases h; rfl⟩

theorem bind {x : Except SchemaError α} {y : Except SchemaError β} {f : α → Except SchemaError γ}
    {g : β → Except SchemaError δ} (h : t.Carries m x y)
    (hfg : ∀ a, t.Carries n (f a) (g (m a))) : t.Carries n (x >>= f) (y >>= g) := by
  cases x with
  | ok a => rw [h.ok rfl]; exact hfg a
  | error e =>
    refine ⟨fun hx => (nomatch hx), fun hexact _ hx => ?_⟩
    cases hx
    rw [h.error hexact rfl]
    rfl

theorem map {x : Except SchemaError α} {y : Except SchemaError β} {f : α → γ} {g : β → δ}
    (h : t.Carries m x y) (hfg : ∀ a, g (m a) = n (f a)) : t.Carries n (f <$> x) (g <$> y) := by
  cases x with
  | ok a =>
    rw [h.ok rfl]
    refine ⟨fun hx => ?_, fun _ _ hx => nomatch hx⟩
    cases hx
    exact congrArg _ (hfg a)
  | error e =>
    refine ⟨fun hx => (nomatch hx), fun hexact _ hx => ?_⟩
    cases hx
    rw [h.error hexact rfl]
    rfl

end Carries

section Keywords

variable (path : SchemaPath)

theorem carries_kindOf (name : String) :
    t.Carries id (kindOf path name) (kindOf (t.path path) name) := by
  unfold kindOf
  split
  · exact .ofOk id _
  · exact .ofError id path _

theorem carries_kindsOf (names : List Value) : ∀ read : List Kind,
    t.Carries id (kindsOf path read names) (kindsOf (t.path path) read names) := by
  induction names with
  | nil => exact fun read => .ofOk id read
  | cons member rest ih =>
    intro read
    cases member with
    | str name =>
      rw [kindsOf, kindsOf, ← t.path_index]
      refine (t.carries_kindOf _ name).bind fun kind => ?_
      dsimp only [id]
      split
      · exact .ofError id _ _
      · exact ih _
    | _ =>
      show t.Carries id (.error ⟨path.index read.length, .typeNotString⟩)
        (.error ⟨(t.path path).index read.length, .typeNotString⟩)
      rw [← t.path_index]
      exact .ofError id _ _

theorem rule_check (c : Check) (h : c.keyword ≠ .pattern) :
    t.rule (.check path c) = .check (t.path path) c := by
  rw [rule, Rule.map, t.check_else c h]

theorem rule_anyKind (kinds : List Kind) :
    t.rule (anyKind path kinds) = anyKind (t.path path) kinds := by
  rw [rule, anyKind, Rule.map, Rule.mapAll_eq, anyKind]
  congr 1
  refine List.ext_getElem? fun i => ?_
  rw [List.getElem?_map, List.getElem?_mapIdx, List.getElem?_mapIdx, Option.map_map]
  refine congrFun (congrArg Option.map (funext fun kind => ?_)) _
  rw [← t.path_index]
  exact t.rule_check (path.index i) (.type kind) (show Keyword.type ≠ .pattern by decide)

theorem carries_typeRule (v : Value) :
    t.Carries t.rule (typeRule path v) (typeRule (t.path path) v) := by
  cases v with
  | str name =>
    rw [typeRule, typeRule, ← t.path_key]
    refine (t.carries_kindOf _ name).bind fun kind => ?_
    exact t.rule_check (path.key .type) (.type kind) nofun ▸ .ofOk t.rule _
  | arr names =>
    cases names with
    | nil => rw [typeRule, typeRule, ← t.path_key]; exact .ofError _ _ _
    | cons name rest =>
      rw [typeRule, typeRule, ← t.path_key, ← t.path_key]
      · refine (t.carries_kindsOf _ _ []).bind fun kinds => ?_
        rw [← t.rule_anyKind]
        exact .ofOk _ _
      · nofun
      · nofun
  | _ =>
    rw [typeRule, typeRule, ← t.path_key] <;> first | exact .ofError _ _ _ | nofun

theorem carries_checkRule {c : Except Defect Check}
    (h : ∀ check, c = .ok check → check.keyword ≠ .pattern) :
    t.Carries (Option.map t.rule) (checkRule path c) (checkRule (t.path path) c) := by
  cases c with
  | ok check =>
    rw [checkRule, checkRule, ← t.rule_check _ _ (h check rfl)]
    exact .ofOk _ _
  | error d => exact .ofError _ _ _

theorem carries_patternRule (v : Value) :
    t.Carries (Option.map t.rule) (checkRule path (patternCheck limits.pattern v))
      (checkRule (t.path path) (patternCheck other.pattern v)) := by
  cases v with
  | str source =>
    constructor
    · intro rule? h
      obtain ⟨check, hc, rfl⟩ := checkRule_ok h
      obtain ⟨s, p, hs, hp, rfl⟩ := patternCheck_ok hc
      cases hs
      obtain ⟨q, hq, hcompiled⟩ := t.check_pattern hp
      rw [patternCheck, hcompiled, checkRule, Option.map_some, rule, Rule.map, hq]
    · intro hexact e h
      have hpattern : limits.pattern = other.pattern := congrArg _ (t.limits_eq hexact)
      rw [← hpattern]
      cases hc : patternCheck limits.pattern (.str source) with
      | ok c => rw [hc] at h; cases h
      | error d => rw [hc] at h; cases h; rfl
  | _ => exact .ofError _ _ _

end Keywords

section Subschemas

variable {compile again : SubCompiler}
  (sub : ∀ path v, t.Carries t.rule (compile path v) (again (t.path path) v))
include sub

theorem carries_compileEach (path : SchemaPath) (schemas : List Value) : ∀ start : Nat,
    t.Carries (List.map t.rule) (compileEach compile path start schemas)
      (compileEach again (t.path path) start schemas) := by
  induction schemas with
  | nil => exact fun _ => .ofOk (List.map t.rule) []
  | cons s rest ih =>
    intro start
    rw [compileEach, compileEach, ← t.path_index]
    exact (sub _ s).bind fun rule => (ih (start + 1)).bind fun rules =>
      .ofOk (List.map t.rule) (rule :: rules)

theorem carries_itemsRule (path : SchemaPath) (v : Value) :
    t.Carries t.rule (itemsRule compile path v) (itemsRule again (t.path path) v) := by
  cases v with
  | obj members => exact (sub path _).bind fun rule => .ofOk t.rule (.itemsUniform path rule)
  | arr schemas =>
    refine (t.carries_compileEach sub path schemas 0).bind fun rules => ?_
    rw [← Rule.mapAll_eq]
    exact .ofOk t.rule (.itemsPositional path rules)
  | _ => exact .ofError _ _ _

theorem carries_additionalItemsRule? (path : SchemaPath) (items : Option Value) (v : Value) :
    t.Carries (Option.map t.rule) (additionalItemsRule? compile path items v)
      (additionalItemsRule? again (t.path path) items v) := by
  cases v with
  | obj members =>
    unfold additionalItemsRule?
    dsimp only
    split
    · next schemas =>
      exact (sub path _).bind fun rule =>
        .ofOk (Option.map t.rule) (some (.additionalItems path schemas.length rule))
    · exact .ofOk (Option.map t.rule) none
  | _ => exact .ofError _ _ _

theorem carries_containsRule (path : SchemaPath) (v : Value) :
    t.Carries t.rule (containsRule compile path v) (containsRule again (t.path path) v) := by
  cases v with
  | obj members => exact (sub path _).bind fun rule => .ofOk t.rule (.contains path rule)
  | _ => exact .ofError _ _ _

theorem carries_valueRule (path : SchemaPath) (fields : Fields) (v : Value) (k : Keyword) :
    t.Carries (Option.map t.rule) (valueRule limits.pattern compile path fields v k)
      (valueRule other.pattern again (t.path path) fields v k) := by
  unfold valueRule
  rw [← t.path_key]
  cases k with
  | type => exact (t.carries_typeRule path v).map fun _ => rfl
  | enum => exact t.carries_checkRule _ fun c hc => by cases v <;> cases hc; nofun
  | const =>
    exact t.carries_checkRule (path.key .const) (c := .ok (.const v)) fun c hc => by cases hc; nofun
  | multipleOf =>
    refine t.carries_checkRule _ fun c hc => ?_
    obtain ⟨n, divisor, rfl, -, -, rfl⟩ := multipleOfCheck_ok hc
    nofun
  | range bound => exact t.carries_checkRule _ fun c hc => by cases v <;> cases hc; nofun
  | length bound =>
    refine t.carries_checkRule _ fun c hc => ?_
    obtain ⟨n, limit, rfl, -, rfl⟩ := lengthCheck_ok hc
    nofun
  | pattern => exact t.carries_patternRule _ v
  | items => exact (t.carries_itemsRule sub _ v).map fun _ => rfl
  | additionalItems => exact t.carries_additionalItemsRule? sub _ _ v
  | arraySize bound =>
    refine t.carries_checkRule _ fun c hc => ?_
    obtain ⟨n, limit, rfl, -, rfl⟩ := arraySizeCheck_ok hc
    nofun
  | uniqueItems =>
    dsimp only
    split
    · exact .ofOk (Option.map t.rule) none
    · next c hc =>
      refine t.carries_checkRule _ fun check hcheck => ?_
      cases hcheck
      cases v with
      | bool b => cases b <;> cases hc; nofun
      | _ => cases hc
    · exact .ofError _ _ _
  | contains => exact (t.carries_containsRule sub _ v).map fun _ => rfl
  | allOf => exact .ofOk (Option.map t.rule) none
  | anyOf => exact .ofOk (Option.map t.rule) none

theorem carries_keywordRules (path : SchemaPath) (fields : Fields) (ks : List Keyword) :
    t.Carries (List.map t.rule) (keywordRules limits.pattern compile path fields ks)
      (keywordRules other.pattern again (t.path path) fields ks) := by
  induction ks with
  | nil => exact .ofOk (List.map t.rule) []
  | cons k rest ih =>
    have hrule : t.Carries (Option.map t.rule) (keywordRule limits.pattern compile path fields k)
        (keywordRule other.pattern again (t.path path) fields k) := by
      unfold keywordRule
      split
      · exact .ofOk (Option.map t.rule) none
      · exact t.carries_valueRule sub path fields _ k
    refine hrule.bind fun rule? => ih.bind fun rules => ?_
    have happend : (rule?.map t.rule).toList ++ rules.map t.rule =
        (rule?.toList ++ rules).map t.rule := by
      cases rule? <;> rfl
    exact happend ▸ .ofOk (List.map t.rule) (rule?.toList ++ rules)

end Subschemas

end Transfer

/-- What compiles compiles as well where more levels are left. -/
theorem compileAt_transfer {limits other : Limits} (t : Transfer limits other) :
    ∀ {levels more : Nat}, levels ≤ more → (t.exact → levels = more) → ∀ path schema,
      t.Carries t.rule (compileAt limits levels path schema)
        (compileAt other more (t.path path) schema) := by
  intro levels
  induction levels with
  | zero =>
    intro more _ hexact path schema
    refine ⟨nofun, fun h e he => ?_⟩
    have hdepth : limits.depth = other.depth := congrArg _ (t.limits_eq h)
    cases he
    rw [← hexact h, hdepth]
    rfl
  | succ levels ih =>
    intro more hle hexact path schema
    obtain ⟨more, rfl⟩ : ∃ n, more = n + 1 := ⟨more - 1, by omega⟩
    have hsub := ih (Nat.le_of_succ_le_succ hle) fun h => Nat.succ.inj (hexact h)
    cases schema with
    | obj fields =>
      refine (t.carries_keywordRules hsub path fields _).bind fun rules => ?_
      rw [← Rule.map_all]
      exact .ofOk t.rule (Rule.all path rules)
    | _ => exact .ofError _ _ _

section Limits

variable {limits other : Limits}

/-- Larger patterns are allowed, and more steps back in their matches. -/
def Transfer.raised (hsize : limits.pattern.size ≤ other.pattern.size)
    (hsteps : limits.pattern.steps ≤ other.pattern.steps) : Transfer limits other where
  path := id
  check := Check.raise other.pattern.steps
  path_key _ _ := rfl
  path_index _ _ := rfl
  check_else _ h := Check.raise_of_keyword_ne _ h
  check_pattern h := ⟨_, rfl, Pattern.compile_raise hsize hsteps h⟩
  exact := False
  limits_eq := False.elim

variable {levels more : Nat} {path : SchemaPath} {schema : Value} {rule : Rule}

theorem compileAt_raised (h : compileAt limits levels path schema = .ok rule)
    (hsize : limits.pattern.size ≤ other.pattern.size)
    (hsteps : limits.pattern.steps ≤ other.pattern.steps) (hle : levels ≤ more) :
    compileAt other more path schema = .ok (rule.map id (Check.raise other.pattern.steps)) := by
  have hcarries := compileAt_transfer (.raised hsize hsteps) hle False.elim path schema
  exact hcarries.ok h

/-- The tree stays the same where more levels and larger patterns are allowed. -/
theorem compileAt_larger (h : compileAt limits levels path schema = .ok rule)
    (hsize : limits.pattern.size ≤ other.pattern.size)
    (hsteps : limits.pattern.steps = other.pattern.steps) (hle : levels ≤ more) :
    compileAt other more path schema = .ok rule := by
  have hself := compileAt_raised h (Nat.le_refl _) (Nat.le_refl _) (Nat.le_refl levels)
  rw [compileAt_raised h hsize (Nat.le_of_eq hsteps) hle, ← hsteps, ← hself, h]

end Limits

/-- Compilation at another path, from a root on. -/
def Transfer.moved (limits : Limits) (base : SchemaPath) : Transfer limits limits where
  path := base.append
  check := id
  path_key p k := by simp [SchemaPath.append, SchemaPath.key]
  path_index p i := by simp [SchemaPath.append, SchemaPath.index]
  check_else _ _ := rfl
  check_pattern h := ⟨_, rfl, h⟩
  exact := True
  limits_eq _ := rfl

theorem compileAt_moved (limits : Limits) (levels : Nat) (base path : SchemaPath) (schema : Value) :
    (Transfer.moved limits base).Carries (Transfer.moved limits base).rule
      (compileAt limits levels path schema) (compileAt limits levels (base.append path) schema) :=
  compileAt_transfer (.moved limits base) (Nat.le_refl levels) (fun _ => rfl) path schema

/-- Compilation at one root is compilation at another, with the root replaced. -/
theorem compile_root (limits : Limits) (root other : String) (schema : Value) :
    (Transfer.moved limits (.ofRoot other)).Carries (Transfer.moved limits (.ofRoot other)).rule
      (compile limits root schema) (compile limits other schema) :=
  compileAt_moved limits (limits.depth + 1) (.ofRoot other) (.ofRoot root) schema

end Schema

end JsonRules
