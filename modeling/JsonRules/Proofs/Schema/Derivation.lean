import JsonRules.Proofs.Search
import JsonRules.Schema.Compile

/-!
# How rules are derived

`Gives` lists what each keyword can give when nothing is wrong with it: at most one rule, from the
value of the keyword and the rules of its subschemas. `compileAt_induction` carries a property of
subschemas and their rules over to every schema that compiles; the levels are counted only there.
-/

namespace JsonRules

theorem Kind.name_of_ofName? {name : String} {kind : Kind} (h : Kind.ofName? name = some kind) :
    kind.name = name := by
  unfold Kind.ofName? at h
  have hname := List.find?_some h
  exact eq_of_beq hname

theorem Kind.ofName?_name (kind : Kind) : Kind.ofName? kind.name = some kind := by
  cases kind <;> decide

namespace Schema

theorem bind_eq_ok {ε α β : Type} {x : Except ε α} {f : α → Except ε β} {b : β} :
    x >>= f = .ok b ↔ ∃ a, x = .ok a ∧ f a = .ok b := by
  cases x <;> simp [bind, Except.bind]

theorem map_eq_ok {ε α β : Type} {x : Except ε α} {f : α → β} {b : β} :
    f <$> x = .ok b ↔ ∃ a, x = .ok a ∧ f a = b := by
  cases x <;> simp [Functor.map, Except.map]

/-- The rule that a keyword with its value gives in the schema with the given members, if it
gives one. `Sub` relates subschemas at their paths to their rules. -/
inductive Gives (limits : PatternLimits) (Sub : SchemaPath → Value → Rule → Prop)
    (path : SchemaPath) (fields : Fields) : Keyword → Value → Option Rule → Prop
  | type (kind : Kind) : Gives limits Sub path fields .type (.str kind.name)
      (some (.check (path.key .type) (.type kind)))
  | types {kinds : List Kind} (nonempty : kinds ≠ []) (nodup : kinds.Nodup) :
      Gives limits Sub path fields .type (.arr (kinds.map fun kind => .str kind.name))
        (some (anyKind (path.key .anyOf) kinds))
  | enum (values : List Value) : Gives limits Sub path fields .enum (.arr values)
      (some (.check (path.key .enum) (.enumeration values)))
  | const (literal : Value) : Gives limits Sub path fields .const literal
      (some (.check (path.key .const) (.const literal)))
  | multipleOf {n : Number} {divisor : Nat} (size : n.toSize? = some divisor)
      (pos : 0 < divisor) : Gives limits Sub path fields .multipleOf (.num n)
        (some (.check (path.key .multipleOf) (.multipleOf divisor)))
  | range (bound : RangeBound) (border : Number) :
      Gives limits Sub path fields (.range bound) (.num border)
        (some (.check (path.key (.range bound)) (.range bound border)))
  | length (bound : SizeBound) {n : Number} {limit : Nat} (size : n.toSize? = some limit) :
      Gives limits Sub path fields (.length bound) (.num n)
        (some (.check (path.key (.length bound)) (.length bound limit)))
  | pattern {source : String} {p : Pattern} (compiled : Pattern.compile limits source = .ok p) :
      Gives limits Sub path fields .pattern (.str source)
        (some (.check (path.key .pattern) (.pattern p)))
  | items {members : Fields} {rule : Rule} (sub : Sub (path.key .items) (.obj members) rule) :
      Gives limits Sub path fields .items (.obj members)
        (some (.itemsUniform (path.key .items) rule))
  | places {schemas : List Value} {rules : List Rule} (length : rules.length = schemas.length)
      (sub : ∀ (i : Nat) (hs : i < schemas.length) (hr : i < rules.length),
        Sub ((path.key .items).index i) schemas[i] rules[i]) :
      Gives limits Sub path fields .items (.arr schemas)
        (some (.itemsPositional (path.key .items) rules))
  | additionalItems {members : Fields} {schemas : List Value} {rule : Rule}
      (items : Fields.get? Keyword.items.name fields = some (.arr schemas))
      (sub : Sub (path.key .additionalItems) (.obj members) rule) :
      Gives limits Sub path fields .additionalItems (.obj members)
        (some (.additionalItems (path.key .additionalItems) schemas.length rule))
  | noAdditionalItems {members : Fields}
      (items : ∀ schemas, Fields.get? Keyword.items.name fields ≠ some (.arr schemas)) :
      Gives limits Sub path fields .additionalItems (.obj members) none
  | arraySize (bound : SizeBound) {n : Number} {limit : Nat} (size : n.toSize? = some limit) :
      Gives limits Sub path fields (.arraySize bound) (.num n)
        (some (.check (path.key (.arraySize bound)) (.arraySize bound limit)))
  | uniqueItems : Gives limits Sub path fields .uniqueItems (.bool true)
      (some (.check (path.key .uniqueItems) .uniqueItems))
  | notUniqueItems : Gives limits Sub path fields .uniqueItems (.bool false) none
  | contains {members : Fields} {rule : Rule} (sub : Sub (path.key .contains) (.obj members) rule) :
      Gives limits Sub path fields .contains (.obj members)
        (some (.contains (path.key .contains) rule))

theorem kindOf_ok {path : SchemaPath} {name : String} {kind : Kind}
    (h : kindOf path name = .ok kind) : kind.name = name := by
  unfold kindOf at h
  split at h
  · next hk => cases h; exact Kind.name_of_ofName? hk
  · cases h

/-- A list of types that is read names different kinds. -/
theorem kindsOf_ok {path : SchemaPath} {names : List Value} :
    ∀ {read kinds : List Kind}, read.Nodup → kindsOf path read names = .ok kinds →
      kinds.Nodup ∧ ∃ rest, kinds = read ++ rest ∧ names = rest.map fun kind => .str kind.name := by
  induction names with
  | nil =>
    intro read kinds hread h
    rw [kindsOf] at h
    cases h
    exact ⟨hread, [], (List.append_nil _).symm, rfl⟩
  | cons v names ih =>
    intro read kinds hread h
    cases v with
    | str name =>
      rw [kindsOf] at h
      obtain ⟨kind, hkind, h⟩ := bind_eq_ok.1 h
      split at h
      · cases h
      · next hnew =>
        have hread' : (read ++ [kind]).Nodup := by
          rw [List.nodup_append]
          refine ⟨hread, List.pairwise_singleton _ kind, fun a ha b hb => ?_⟩
          rw [List.mem_singleton.1 hb]
          rintro rfl
          exact hnew ha
        obtain ⟨hnodup, rest, rfl, rfl⟩ := ih hread' h
        refine ⟨hnodup, kind :: rest, by simp, ?_⟩
        rw [List.map_cons, kindOf_ok hkind]
    | _ => cases h

theorem typeRule_ok {limits : PatternLimits} {Sub : SchemaPath → Value → Rule → Prop}
    {path : SchemaPath} {fields : Fields} {v : Value} {rule : Rule}
    (h : typeRule path v = .ok rule) : Gives limits Sub path fields .type v (some rule) := by
  unfold typeRule at h
  split at h
  · obtain ⟨kind, hkind, h⟩ := bind_eq_ok.1 h
    cases h
    rw [← kindOf_ok hkind]
    exact .type kind
  · cases h
  · next names hne =>
    obtain ⟨kinds, hkinds, h⟩ := bind_eq_ok.1 h
    cases h
    obtain ⟨hnodup, rest, rfl, rfl⟩ := kindsOf_ok List.nodup_nil hkinds
    refine .types ?_ hnodup
    rintro rfl
    exact hne rfl
  · cases h

theorem compileEach_ok {compile : SubCompiler} {path : SchemaPath} {schemas : List Value} :
    ∀ {start : Nat} {rules : List Rule}, compileEach compile path start schemas = .ok rules →
      rules.length = schemas.length ∧ ∀ (i : Nat) (hs : i < schemas.length) (hr : i < rules.length),
        compile (path.index (start + i)) schemas[i] = .ok rules[i] := by
  induction schemas with
  | nil => intro start rules h; cases h; exact ⟨rfl, nofun⟩
  | cons s rest ih =>
    intro start rules h
    rw [compileEach] at h
    obtain ⟨rule, hrule, h⟩ := bind_eq_ok.1 h
    obtain ⟨rules, hrules, h⟩ := bind_eq_ok.1 h
    cases h
    obtain ⟨hlen, heach⟩ := ih hrules
    refine ⟨congrArg (· + 1) hlen, fun i hs hr => ?_⟩
    cases i with
    | zero => exact hrule
    | succ i =>
      have := heach i (Nat.lt_of_succ_lt_succ hs) (Nat.lt_of_succ_lt_succ hr)
      rw [Nat.add_assoc, Nat.add_comm 1 i] at this
      exact this

theorem checkRule_ok {path : SchemaPath} {c : Except Defect Check} {rule? : Option Rule}
    (h : checkRule path c = .ok rule?) :
    ∃ check, c = .ok check ∧ rule? = some (.check path check) := by
  cases c with
  | ok check => cases h; exact ⟨check, rfl, rfl⟩
  | error d => cases h

theorem size?_eq_some {v : Value} {size : Nat} (h : size? v = some size) :
    ∃ n, v = .num n ∧ n.toSize? = some size := by
  cases v with
  | num n => exact ⟨n, rfl, h⟩
  | _ => cases h

theorem multipleOfCheck_ok {v : Value} {check : Check} (h : multipleOfCheck v = .ok check) :
    ∃ n divisor, v = .num n ∧ n.toSize? = some divisor ∧ 0 < divisor ∧
      check = .multipleOf divisor := by
  unfold multipleOfCheck at h
  split at h
  · cases h
  · next divisor hne hsize =>
    cases h
    obtain ⟨n, rfl, hn⟩ := size?_eq_some hsize
    exact ⟨n, divisor, rfl, hn, Nat.pos_of_ne_zero hne, rfl⟩
  · cases h

theorem lengthCheck_ok {bound : SizeBound} {v : Value} {check : Check}
    (h : lengthCheck bound v = .ok check) :
    ∃ n limit, v = .num n ∧ n.toSize? = some limit ∧ check = .length bound limit := by
  unfold lengthCheck at h
  split at h
  · next limit hsize =>
    cases h
    obtain ⟨n, rfl, hn⟩ := size?_eq_some hsize
    exact ⟨n, limit, rfl, hn, rfl⟩
  · cases h

theorem arraySizeCheck_ok {bound : SizeBound} {v : Value} {check : Check}
    (h : arraySizeCheck bound v = .ok check) :
    ∃ n limit, v = .num n ∧ n.toSize? = some limit ∧ check = .arraySize bound limit := by
  unfold arraySizeCheck at h
  split at h
  · next limit hsize =>
    cases h
    obtain ⟨n, rfl, hn⟩ := size?_eq_some hsize
    exact ⟨n, limit, rfl, hn, rfl⟩
  · cases h

theorem patternCheck_ok {limits : PatternLimits} {v : Value} {check : Check}
    (h : patternCheck limits v = .ok check) :
    ∃ source p, v = .str source ∧ Pattern.compile limits source = .ok p ∧ check = .pattern p := by
  cases v with
  | str source =>
    simp only [patternCheck] at h
    split at h
    · next p hp => cases h; exact ⟨source, p, rfl, hp, rfl⟩
    · cases h
  | _ => cases h

section Gives

variable {limits : PatternLimits} {compile : SubCompiler} {path : SchemaPath} {fields : Fields}
  {v : Value} {Sub : SchemaPath → Value → Rule → Prop}

theorem itemsRule_gives
    (sub : ∀ path schema rule, compile path schema = .ok rule → Sub path schema rule) {rule : Rule}
    (h : itemsRule compile (path.key .items) v = .ok rule) :
    Gives limits Sub path fields .items v (some rule) := by
  cases v with
  | obj members =>
    obtain ⟨rule, hsub, h⟩ := bind_eq_ok.1 h
    cases h
    exact .items (sub _ _ _ hsub)
  | arr schemas =>
    obtain ⟨rules, heach, h⟩ := bind_eq_ok.1 h
    cases h
    obtain ⟨hlen, heach⟩ := compileEach_ok heach
    refine .places hlen fun i hs hr => sub _ _ _ ?_
    rw [← heach i hs hr, Nat.zero_add]
  | _ => cases h

theorem additionalItemsRule?_gives
    (sub : ∀ path schema rule, compile path schema = .ok rule → Sub path schema rule)
    {rule? : Option Rule}
    (h : additionalItemsRule? compile (path.key .additionalItems)
      (Fields.get? Keyword.items.name fields) v = .ok rule?) :
    Gives limits Sub path fields .additionalItems v rule? := by
  cases v with
  | obj members =>
    simp only [additionalItemsRule?] at h
    split at h
    · next schemas hitems =>
      obtain ⟨rule, hsub, h⟩ := bind_eq_ok.1 h
      cases h
      exact .additionalItems hitems (sub _ _ _ hsub)
    · next hitems => cases h; exact .noAdditionalItems hitems
  | _ => cases h

theorem containsRule_gives
    (sub : ∀ path schema rule, compile path schema = .ok rule → Sub path schema rule) {rule : Rule}
    (h : containsRule compile (path.key .contains) v = .ok rule) :
    Gives limits Sub path fields .contains v (some rule) := by
  cases v with
  | obj members =>
    obtain ⟨rule, hsub, h⟩ := bind_eq_ok.1 h
    cases h
    exact .contains (sub _ _ _ hsub)
  | _ => cases h

/-- What a keyword gives, for one that can stand in a schema. -/
theorem valueRule_ok
    (sub : ∀ path schema rule, compile path schema = .ok rule → Sub path schema rule)
    {k : Keyword} (hk : k ∈ Keyword.inOrder) {rule? : Option Rule}
    (h : valueRule limits compile path fields v k = .ok rule?) :
    Gives limits Sub path fields k v rule? := by
  cases k with
  | type =>
    obtain ⟨rule, hrule, rfl⟩ := map_eq_ok.1 h
    exact typeRule_ok hrule
  | enum =>
    obtain ⟨check, hc, rfl⟩ := checkRule_ok h
    cases v with
    | arr values => cases hc; exact .enum values
    | _ => cases hc
  | const => cases h; exact .const v
  | multipleOf =>
    obtain ⟨check, hc, rfl⟩ := checkRule_ok h
    obtain ⟨n, divisor, rfl, hn, hpos, rfl⟩ := multipleOfCheck_ok hc
    exact .multipleOf hn hpos
  | range bound =>
    obtain ⟨check, hc, rfl⟩ := checkRule_ok h
    cases v with
    | num border => cases hc; exact .range bound border
    | _ => cases hc
  | length bound =>
    obtain ⟨check, hc, rfl⟩ := checkRule_ok h
    obtain ⟨n, limit, rfl, hn, rfl⟩ := lengthCheck_ok hc
    exact .length bound hn
  | pattern =>
    obtain ⟨check, hc, rfl⟩ := checkRule_ok h
    obtain ⟨source, p, rfl, hp, rfl⟩ := patternCheck_ok hc
    exact .pattern hp
  | items =>
    obtain ⟨rule, hrule, rfl⟩ := map_eq_ok.1 h
    exact itemsRule_gives sub hrule
  | additionalItems => exact additionalItemsRule?_gives sub h
  | arraySize bound =>
    obtain ⟨check, hc, rfl⟩ := checkRule_ok h
    obtain ⟨n, limit, rfl, hn, rfl⟩ := arraySizeCheck_ok hc
    exact .arraySize bound hn
  | uniqueItems =>
    cases v with
    | bool b =>
      cases b
      · cases h; exact .notUniqueItems
      · cases h; exact .uniqueItems
    | _ => cases h
  | contains =>
    obtain ⟨rule, hrule, rfl⟩ := map_eq_ok.1 h
    exact containsRule_gives sub hrule
  | allOf => exact absurd hk (by decide)
  | anyOf => exact absurd hk (by decide)

end Gives

/-- What each keyword gives in the schema with the given members. -/
def GivesEach (limits : PatternLimits) (Sub : SchemaPath → Value → Rule → Prop)
    (path : SchemaPath) (fields : Fields) (part : Keyword → Option Rule) : Prop :=
  ∀ k ∈ Keyword.inOrder, match Fields.get? k.name fields with
    | none => part k = none
    | some v => Gives limits Sub path fields k v (part k)

theorem GivesEach.exists_gives {limits : PatternLimits} {Sub : SchemaPath → Value → Rule → Prop}
    {path : SchemaPath} {fields : Fields} {part : Keyword → Option Rule}
    (h : GivesEach limits Sub path fields part) {k : Keyword} (hk : k ∈ Keyword.inOrder)
    {rule : Rule} (hpart : part k = some rule) :
    ∃ v, Fields.get? k.name fields = some v ∧ Gives limits Sub path fields k v (some rule) := by
  have hgives := h k hk
  rw [hpart] at hgives
  split at hgives
  · cases hgives
  · next v hget => exact ⟨v, hget, hgives⟩

theorem keywordRule_of_none {limits : PatternLimits} {compile : SubCompiler} {path : SchemaPath}
    {fields : Fields} {k : Keyword} (h : Fields.get? k.name fields = none) :
    keywordRule limits compile path fields k = .ok none := by
  rw [keywordRule, h]

theorem keywordRule_of_some {limits : PatternLimits} {compile : SubCompiler} {path : SchemaPath}
    {fields : Fields} {k : Keyword} {v : Value} (h : Fields.get? k.name fields = some v) :
    keywordRule limits compile path fields k = valueRule limits compile path fields v k := by
  rw [keywordRule, h]

/-- The rule that a keyword gives, or none if it is defective. -/
def partOf (limits : PatternLimits) (compile : SubCompiler) (path : SchemaPath) (fields : Fields)
    (k : Keyword) : Option Rule :=
  (keywordRule limits compile path fields k).toOption.join

theorem keywordRules_ok {limits : PatternLimits} {compile : SubCompiler} {path : SchemaPath}
    {fields : Fields} {ks : List Keyword} :
    ∀ {rules : List Rule}, keywordRules limits compile path fields ks = .ok rules →
      rules = ks.filterMap (partOf limits compile path fields) ∧
        ∀ k ∈ ks, keywordRule limits compile path fields k =
          .ok (partOf limits compile path fields k) := by
  induction ks with
  | nil => intro rules h; cases h; exact ⟨rfl, nofun⟩
  | cons k rest ih =>
    intro rules h
    rw [keywordRules] at h
    obtain ⟨rule?, hrule, h⟩ := bind_eq_ok.1 h
    obtain ⟨rules, hrules, h⟩ := bind_eq_ok.1 h
    cases h
    obtain ⟨rfl, heach⟩ := ih hrules
    have hpart : partOf limits compile path fields k = rule? := by rw [partOf, hrule]; rfl
    refine ⟨?_, List.forall_mem_cons.2 ⟨hrule.trans (by rw [hpart]), heach⟩⟩
    rw [List.filterMap_cons, hpart]
    cases rule? <;> rfl

/-- The tree of a schema that compiles joins what its keywords give, none of them defective. -/
theorem compileAt_parts {limits : Limits} {levels : Nat} {path : SchemaPath} {fields : Fields}
    {rule : Rule} (h : compileAt limits (levels + 1) path (.obj fields) = .ok rule) :
    let part := partOf limits.pattern (compileAt limits levels) path fields
    rule = Rule.all path (Keyword.inOrder.filterMap part) ∧ ∀ k ∈ Keyword.inOrder,
      keywordRule limits.pattern (compileAt limits levels) path fields k = .ok (part k) := by
  obtain ⟨rules, hrules, h⟩ := bind_eq_ok.1 h
  cases h
  obtain ⟨rfl, heach⟩ := keywordRules_ok hrules
  exact ⟨rfl, heach⟩

/-- What compiles is an object whose keywords give the rules, one level up from its subschemas. -/
theorem compileAt_ok {limits : Limits} {levels : Nat} {P : SchemaPath → Value → Rule → Prop}
    (sub : ∀ path schema rule, compileAt limits levels path schema = .ok rule → P path schema rule)
    {path : SchemaPath} {schema : Value} {rule : Rule}
    (h : compileAt limits (levels + 1) path schema = .ok rule) :
    ∃ fields part, schema = .obj fields ∧
      rule = Rule.all path (Keyword.inOrder.filterMap part) ∧
      GivesEach limits.pattern P path fields part := by
  cases schema with
  | obj fields =>
    obtain ⟨hrule, heach⟩ := compileAt_parts h
    refine ⟨fields, _, rfl, hrule, fun k hk => ?_⟩
    have hpart := heach k hk
    cases hget : Fields.get? k.name fields with
    | none =>
      rw [keywordRule_of_none hget] at hpart
      exact (Except.ok.inj hpart).symm
    | some v =>
      rw [keywordRule_of_some hget] at hpart
      exact valueRule_ok sub hk hpart
  | _ => cases h

/-- A property of subschemas and their rules that goes over to schemas holds of every schema that
compiles. -/
theorem compileAt_induction {limits : Limits} {P : SchemaPath → Value → Rule → Prop}
    (step : ∀ path fields part, GivesEach limits.pattern P path fields part →
      P path (.obj fields) (Rule.all path (Keyword.inOrder.filterMap part))) :
    ∀ levels path schema rule, compileAt limits levels path schema = .ok rule →
      P path schema rule := by
  intro levels
  induction levels with
  | zero => intro path schema rule h; cases h
  | succ levels ih =>
    intro path schema rule h
    obtain ⟨fields, part, rfl, rfl, hparts⟩ := compileAt_ok ih h
    exact step path fields part hparts

end Schema

end JsonRules
