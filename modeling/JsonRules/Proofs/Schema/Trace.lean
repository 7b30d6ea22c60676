import JsonRules.Proofs.Rule.Relocation
import JsonRules.Proofs.Schema.Path
import JsonRules.Proofs.Schema.WellFormed
import JsonRules.Rule.Trace

/-!
# Every error is traced back

An error goes up unchanged from the rule that finds it, through joined rules and rules that go on to
items. In a compiled tree the path tells which rule that is: the rules that come from different
keywords or different subschemas lie at different paths, and the one for the items of `contains`
lies at a longer path than `contains` itself.
-/

namespace JsonRules

namespace Rule

/-- `Leads rule v indices places node w`: errors that `node` finds in `w` are passed on as errors of
`v` under the rule. The indices lead to the node, and the places to the part of the value. -/
inductive Leads : Rule → Value → List Nat → List Nat → Rule → Value → Prop
  | self {node : Rule} {w : Value} (reports : node.reports = true) : Leads node w [] [] node w
  | joined {path : SchemaPath} {rules : List Rule} {i : Nat} {rule node : Rule} {v w : Value}
      {indices places : List Nat} (child : rules[i]? = some rule)
      (below : Leads rule v indices places node w) :
      Leads (allOf path rules) v (i :: indices) places node w
  | entered {whole rule node : Rule} {i j : Nat} {items : List Value} {v w : Value}
      {indices places : List Nat} (enters : whole.entersItems = true)
      (child : whole.children[i]? = some rule) (item : items[j]? = some v)
      (below : Leads rule v indices places node w) :
      Leads whole (.arr items) (i :: indices) (j :: places) node w

namespace Leads

variable {rule node : Rule} {v w : Value} {indices places : List Nat}

theorem reached (h : Leads rule v indices places node w) :
    rule.descendant? indices = some node := by
  induction h with
  | self => rw [descendant?]
  | joined child _ ih | entered _ child _ _ ih => exact descendant?_cons.2 ⟨_, child, ih⟩

theorem located (h : Leads rule v indices places node w) :
    v.follow? (places.map .index) = some w := by
  induction h with
  | self => rw [List.map_nil, Value.follow?]
  | joined _ _ ih => exact ih
  | entered _ _ item _ ih => rw [List.map_cons, Value.follow?, item, Option.bind_some, ih]

theorem entered_eq (h : Leads rule v indices places node w) :
    places.length = (rule.above indices).countP entersItems := by
  induction h with
  | self => rw [above]; rfl
  | joined child _ ih =>
    rw [above_cons child, List.countP_cons_of_neg (by exact Bool.false_ne_true)]
    exact ih
  | entered enters child _ _ ih =>
    rw [above_cons child, List.countP_cons_of_pos enters, List.length_cons, ih]

theorem keyword_ne_of_entersItems (h : rule.entersItems = true) :
    rule.keyword ≠ .contains ∧ rule.keyword ≠ .anyOf := by
  cases rule with
  | itemsUniform | itemsPositional | additionalItems => exact ⟨nofun, nofun⟩
  | _ => cases h

theorem passed (h : Leads rule v indices places node w) :
    ∀ r ∈ rule.above indices, r.keyword ≠ .contains ∧ r.keyword ≠ .anyOf := by
  induction h with
  | self => rw [above]; exact List.forall_mem_nil _
  | joined child _ ih =>
    rw [above_cons child, List.forall_mem_cons]
    have hjoined : Keyword.allOf ≠ .contains ∧ Keyword.allOf ≠ .anyOf := by decide
    exact ⟨hjoined, ih⟩
  | entered enters child _ _ ih =>
    rw [above_cons child, List.forall_mem_cons]
    exact ⟨keyword_ne_of_entersItems enters, ih⟩

end Leads

/-- Indices lead to each rule that evaluation comes to. -/
theorem ComesTo.exists_leads {rule node : Rule} {v w : Value} {places : List Nat}
    (h : rule.ComesTo v places node w) (hreports : node.reports = true) :
    ∃ indices, Leads rule v indices places node w := by
  induction h with
  | self rule v => exact ⟨[], .self hreports⟩
  | @joined path before after rule node v w places _ _ ih =>
    obtain ⟨indices, hleads⟩ := ih hreports
    have hchild : (before ++ rule :: after)[before.length]? = some rule := by simp
    exact ⟨before.length :: indices, .joined hchild hleads⟩
  | item applied item _ _ ih =>
    obtain ⟨indices, hleads⟩ := ih hreports
    obtain ⟨i, hchild⟩ := List.mem_iff_getElem?.1 (mem_children_of_itemRule? applied)
    exact ⟨i :: indices, .entered (entersItems_of_itemRule? applied) hchild item hleads⟩

/-- An error of a whole value is found by some rule of the tree. -/
theorem exists_finds {rule : Rule} {v : Value} {e : ValidationError}
    (h : rule.evaluate v .root = .error e) : ∃ indices node w, rule.Finds v e indices node w := by
  obtain ⟨places, node, w, own, hcomes, hreports, hown, rfl⟩ :=
    rule.exists_comesTo (evaluate_eq_error.1 h)
  obtain ⟨indices, hleads⟩ := hcomes.exists_leads hreports
  obtain ⟨hpath, hkey, hroot⟩ := error?_of_reports hreports hown
  have hlocation : (own.under ⟨places⟩).location = ⟨places⟩ := by
    rw [ValidationError.under, hroot, Location.append_root]
  refine ⟨indices, node, w, ?_, hleads.reached, hreports, hpath, hkey, ?_, ?_, hleads.passed⟩
  · rw [Value.at?, hlocation]; exact hleads.located
  · rw [evaluate_eq_error, hlocation, error?_eq_under, hown, Option.map_some]
  · rw [Location.length, hlocation]; exact hleads.entered_eq

/-- The indices lead to a rule with errors of its own at the given path. -/
def ReportsAt (rule : Rule) (path : SchemaPath) (indices : List Nat) : Prop :=
  ∃ r, rule.descendant? indices = some r ∧ r.reports = true ∧ r.path = path

theorem reportsAt_nil {rule : Rule} {path : SchemaPath} :
    rule.ReportsAt path [] ↔ rule.reports = true ∧ rule.path = path := by
  simp [ReportsAt, descendant?]

theorem reportsAt_cons {rule : Rule} {path : SchemaPath} {i : Nat} {rest : List Nat} :
    rule.ReportsAt path (i :: rest) ↔
      ∃ child, rule.children[i]? = some child ∧ child.ReportsAt path rest := by
  constructor
  · rintro ⟨r, hr, hreports⟩
    obtain ⟨child, hchild, hr⟩ := descendant?_cons.1 hr
    exact ⟨child, hchild, r, hr, hreports⟩
  · rintro ⟨child, hchild, r, hr, hreports⟩
    exact ⟨r, descendant?_cons.2 ⟨child, hchild, hr⟩, hreports⟩

end Rule

/-- The path is another one or leads from it further on. -/
def SchemaPath.Under (path below : SchemaPath) : Prop :=
  ∃ rest, below = ⟨path.root, path.steps ++ rest⟩

namespace SchemaPath.Under

variable {path below q : SchemaPath}

theorem refl (path : SchemaPath) : path.Under path := ⟨[], by rw [List.append_nil]⟩

/-- Whatever lies under a step from a path lies under the path, and not at it. -/
theorem of_step {step : PathStep} (h : Under ⟨path.root, path.steps ++ [step]⟩ q) :
    path.Under q ∧ q ≠ path := by
  obtain ⟨rest, rfl⟩ := h
  refine ⟨⟨step :: rest, by rw [List.append_assoc]; rfl⟩, fun heq => ?_⟩
  have hlen := congrArg (fun p => p.steps.length) heq
  simp only [List.length_append, List.length_cons, List.length_nil] at hlen
  omega

/-- What lies under a step from a path lies under no other step. -/
theorem step_unique {s t : PathStep} (hs : Under ⟨path.root, path.steps ++ [s]⟩ q)
    (ht : Under ⟨path.root, path.steps ++ [t]⟩ q) : s = t := by
  obtain ⟨a, rfl⟩ := hs
  obtain ⟨b, hb⟩ := ht
  simp only [SchemaPath.mk.injEq, List.append_assoc, List.append_cancel_left_eq,
    List.singleton_append, List.cons.injEq, true_and] at hb
  exact hb.1

end SchemaPath.Under

namespace Rule

/-- The rules with errors of their own lie at the path or under it, no two of them at one path. -/
structure Distinct (path : SchemaPath) (rule : Rule) : Prop where
  under : ∀ q indices, rule.ReportsAt q indices → path.Under q
  unique : ∀ q indices others, rule.ReportsAt q indices → rule.ReportsAt q others →
    indices = others

/-- No rule with errors of its own lies at the path. -/
def Apart (path : SchemaPath) (rule : Rule) : Prop := ∀ indices, ¬rule.ReportsAt path indices

/-- A rule at a path over rules under it, which are told apart by their paths. -/
theorem Distinct.node {path : SchemaPath} {rule : Rule}
    (self : rule.reports = true → rule.path = path)
    (child : ∀ (i : Nat) (c : Rule), rule.children[i]? = some c →
      c.Distinct path ∧ (rule.reports = true → c.Apart path))
    (separate : ∀ (i j : Nat) (c d : Rule) (q : SchemaPath) (a b : List Nat),
      rule.children[i]? = some c → rule.children[j]? = some d → c.ReportsAt q a →
        d.ReportsAt q b → i = j) :
    rule.Distinct path := by
  have hself : ∀ {q i rest}, rule.ReportsAt q [] → ¬rule.ReportsAt q (i :: rest) := by
    intro q i rest hnil hcons
    obtain ⟨hreports, rfl⟩ := reportsAt_nil.1 hnil
    obtain ⟨c, hc, hbelow⟩ := reportsAt_cons.1 hcons
    rw [self hreports] at hbelow
    exact (child i c hc).2 hreports rest hbelow
  constructor
  · intro q indices h
    cases indices with
    | nil =>
      obtain ⟨hreports, rfl⟩ := reportsAt_nil.1 h
      rw [self hreports]
      exact .refl path
    | cons i rest =>
      obtain ⟨c, hc, hbelow⟩ := reportsAt_cons.1 h
      exact (child i c hc).1.under q rest hbelow
  · intro q indices others h h'
    cases indices with
    | nil =>
      cases others with
      | nil => rfl
      | cons j rest => exact absurd h' (hself h)
    | cons i rest =>
      cases others with
      | nil => exact absurd h (hself h')
      | cons j others =>
        obtain ⟨c, hc, hbelow⟩ := reportsAt_cons.1 h
        obtain ⟨d, hd, hother⟩ := reportsAt_cons.1 h'
        obtain rfl := separate i j c d q rest others hc hd hbelow hother
        obtain rfl := Option.some.inj (hc.symm.trans hd)
        rw [(child i c hc).1.unique q rest others hbelow hother]

/-- Rules under different steps from a path are told apart by their paths. -/
theorem Distinct.of_steps {path : SchemaPath} {rule : Rule} (step : Nat → Rule → PathStep)
    (self : rule.reports = true → rule.path = path)
    (child : ∀ (i : Nat) (c : Rule), rule.children[i]? = some c →
      c.Distinct ⟨path.root, path.steps ++ [step i c]⟩)
    (injective : ∀ (i j : Nat) (c d : Rule), rule.children[i]? = some c →
      rule.children[j]? = some d → step i c = step j d → i = j) :
    rule.Distinct path := by
  refine .node self (fun i c hc => ?_) fun i j c d q a b hc hd ha hb => ?_
  · have hstep := child i c hc
    refine ⟨⟨fun q indices h => ?_, hstep.unique⟩, fun _ indices h => ?_⟩
    · exact (hstep.under q indices h).of_step.1
    · exact (hstep.under path indices h).of_step.2 rfl
  · exact injective i j c d hc hd
      (SchemaPath.Under.step_unique ((child i c hc).under q a ha) ((child j d hd).under q b hb))

theorem Distinct.check (path : SchemaPath) (c : Check) : (check path c).Distinct path :=
  .node (fun _ => rfl) (fun _ _ h => nomatch h) fun _ _ _ _ _ _ _ h => nomatch h

/-- A rule with a single one below it, which lies apart from it if both have errors of their own. -/
theorem Distinct.single {path : SchemaPath} {whole rule : Rule} (children : whole.children = [rule])
    (self : whole.reports = true → whole.path = path ∧ rule.Apart path)
    (h : rule.Distinct path) : whole.Distinct path := by
  have hchild : ∀ i c, whole.children[i]? = some c → i = 0 ∧ c = rule := by
    intro i c hc
    rw [children] at hc
    cases i with
    | zero => exact ⟨rfl, (Option.some.inj hc).symm⟩
    | succ i => cases hc
  refine .node (fun hw => (self hw).1) (fun i c hc => ?_) fun i j c d q a b hc hd _ _ => ?_
  · obtain ⟨-, rfl⟩ := hchild i c hc
    exact ⟨h, fun hw => (self hw).2⟩
  · rw [(hchild i c hc).1, (hchild j d hd).1]

end Rule

namespace Schema

theorem distinct_anyKind (path : SchemaPath) (kinds : List Kind) :
    (anyKind path kinds).Distinct path := by
  refine .of_steps (fun i _ => .index i) (fun _ => rfl) (fun i c hc => ?_)
    fun i j c d _ _ h => PathStep.index.inj h
  rw [anyKind, Rule.children, List.getElem?_mapIdx] at hc
  obtain ⟨kind, -, rfl⟩ := Option.map_eq_some_iff.1 hc
  exact .check _ _

/-- The rule of a keyword is found at the keyword's path and under it. -/
theorem Gives.distinct {limits : PatternLimits} {path : SchemaPath} {fields : Fields} {k : Keyword}
    {given : Value} {rule : Rule}
    (h : Gives limits (fun path _ rule => rule.Distinct path ∧ rule.Apart path) path fields k given
      (some rule)) : rule.Distinct (path.key rule.keyword) := by
  cases h with
  | types => exact distinct_anyKind _ _
  | items sub | additionalItems _ sub => exact .single rfl nofun sub.1
  | contains sub => exact .single rfl (fun _ => ⟨rfl, sub.2⟩) sub.1
  | places length sub =>
    refine .of_steps (fun i _ => .index i) nofun (fun i c hc => ?_)
      fun i j c d _ _ h => PathStep.index.inj h
    obtain ⟨hi, rfl⟩ := List.getElem?_eq_some_iff.1 hc
    exact (sub i (length ▸ hi) hi).1
  | _ => exact .check _ _

theorem distinct_of_compile {limits : Limits} {levels : Nat} {path : SchemaPath} {schema : Value}
    {rule : Rule} (h : compileAt limits levels path schema = .ok rule) :
    rule.Distinct path ∧ rule.Apart path := by
  refine compileAt_induction (P := fun path _ rule => rule.Distinct path ∧ rule.Apart path)
    (fun path fields part hparts => ?_) levels path schema rule h
  have heach : ∀ r ∈ Keyword.inOrder.filterMap part, r.Distinct (path.key r.keyword) := by
    intro r hr
    obtain ⟨k, hk, hpart⟩ := List.mem_filterMap.1 hr
    obtain ⟨given, -, hgives⟩ := hparts.exists_gives hk hpart
    exact hgives.distinct
  have hjoined : (Rule.allOf path (Keyword.inOrder.filterMap part)).Distinct path := by
    refine .of_steps (fun _ c => .keyword c.keyword) nofun
      (fun i c hc => heach c (List.mem_of_getElem? hc)) fun i j c d hc hd hkey => ?_
    exact hparts.place_unique hc hd (congrArg Keyword.inSchema (PathStep.keyword.inj hkey))
  unfold Rule.all
  split
  · next r hr =>
    have hr' := heach r (hr ▸ List.mem_cons_self)
    refine ⟨⟨fun q indices hq => ?_, hr'.unique⟩, fun indices hq => ?_⟩
    · exact (hr'.under q indices hq).of_step.1
    · exact (hr'.under path indices hq).of_step.2 rfl
  · refine ⟨hjoined, fun indices hq => ?_⟩
    cases indices with
    | nil => exact absurd (Rule.reportsAt_nil.1 hq).1 Bool.false_ne_true
    | cons i rest =>
      obtain ⟨c, hc, hbelow⟩ := Rule.reportsAt_cons.1 hq
      exact ((heach c (List.mem_of_getElem? hc)).under path rest hbelow).of_step.2 rfl

section Holds

variable {path here : SchemaPath} {k : Keyword} {fields : Fields} {given : Value}

theorem holds_here (hget : Fields.get? k.inSchema.name fields = some given) :
    Holds (.obj fields) path (path.key k) k :=
  ⟨[], fields, given, .self _, hget, by rw [List.append_nil]⟩

/-- What a subschema holds the schema holds. -/
theorem Holds.lift {schema sub : Value} {below : SchemaPath} {steps : List PathStep}
    (hbelow : below = ⟨path.root, path.steps ++ steps⟩)
    (hsub : ∀ {rest s}, Subschema sub rest s → Subschema schema (steps ++ rest) s)
    (h : Holds sub below here k) : Holds schema path here k := by
  obtain ⟨rest, fields, given, hrest, hget, rfl⟩ := h
  refine ⟨steps ++ rest, fields, given, hsub hrest, hget, ?_⟩
  rw [hbelow, List.append_assoc]

end Holds

/-- Every rule with errors of its own that is no alternative lies at the path of its keyword. -/
def Originates (path : SchemaPath) (schema : Value) (rule : Rule) : Prop :=
  ∀ indices r, rule.descendant? indices = some r → r.reports = true →
    (∀ a ∈ rule.above indices, a.keyword ≠ .anyOf) → Holds schema path r.path r.keyword

namespace Originates

variable {path below : SchemaPath} {schema sub : Value} {rule : Rule}

/-- What originates in a subschema originates in the schema. -/
theorem lift {steps : List PathStep} (h : Originates below sub rule)
    (hbelow : below = ⟨path.root, path.steps ++ steps⟩)
    (hsub : ∀ {rest s}, Subschema sub rest s → Subschema schema (steps ++ rest) s) :
    Originates path schema rule :=
  fun indices r hr hreports habove => (h indices r hr hreports habove).lift hbelow hsub

/-- A rule that originates in the schema itself, over rules that do. -/
theorem node (self : rule.reports = true → Holds schema path rule.path rule.keyword)
    (child : rule.keyword ≠ .anyOf → ∀ c ∈ rule.children, Originates path schema c) :
    Originates path schema rule := by
  intro indices r hr hreports habove
  cases indices with
  | nil => rw [Rule.descendant?] at hr; cases hr; exact self hreports
  | cons i rest =>
    obtain ⟨c, hc, hr⟩ := Rule.descendant?_cons.1 hr
    rw [Rule.above_cons hc, List.forall_mem_cons] at habove
    exact child habove.1 c (List.mem_of_getElem? hc) rest r hr hreports habove.2

theorem single {whole : Rule} (children : whole.children = [rule])
    (self : whole.reports = true → Holds schema path whole.path whole.keyword)
    (h : Originates path schema rule) : Originates path schema whole :=
  .node self fun _ => by rw [children]; exact List.forall_mem_singleton.2 h

end Originates

theorem Gives.originates {limits : PatternLimits} {path : SchemaPath} {fields : Fields}
    {k : Keyword} {given : Value} {rule : Rule} (hget : Fields.get? k.name fields = some given)
    (h : Gives limits Originates path fields k given (some rule)) :
    Originates path (.obj fields) rule := by
  cases h with
  | types => exact .node (fun _ => holds_here hget) fun halternatives => absurd rfl halternatives
  | items sub =>
    exact .single rfl (fun h => absurd h Bool.false_ne_true) (sub.lift rfl (.items hget))
  | additionalItems items sub =>
    have hsub := sub.lift rfl (.additionalItems items hget)
    exact .single rfl (fun h => absurd h Bool.false_ne_true) hsub
  | contains sub => exact .single rfl (fun _ => holds_here hget) (sub.lift rfl (.contains hget))
  | places length sub =>
    refine .node (fun h => absurd h Bool.false_ne_true) fun _ c hc => ?_
    obtain ⟨i, hi, rfl⟩ := List.mem_iff_getElem.1 hc
    have hs := length ▸ hi
    have hbelow : (path.key .items).index i =
        ⟨path.root, path.steps ++ [.keyword .items, .index i]⟩ := by
      simp [SchemaPath.index, SchemaPath.key]
    exact (sub i hs hi).lift hbelow (.place hget (List.getElem?_eq_getElem hs))
  | _ => exact .node (fun _ => holds_here hget) fun _ => List.forall_mem_nil _

theorem originates_of_compile {limits : Limits} {levels : Nat} {path : SchemaPath} {schema : Value}
    {rule : Rule} (h : compileAt limits levels path schema = .ok rule) :
    Originates path schema rule := by
  refine compileAt_induction (fun path fields part hparts => ?_) levels path schema rule h
  have heach : ∀ r ∈ Keyword.inOrder.filterMap part, Originates path (.obj fields) r := by
    intro r hr
    obtain ⟨k, hk, hpart⟩ := List.mem_filterMap.1 hr
    obtain ⟨given, hget, hgives⟩ := hparts.exists_gives hk hpart
    exact hgives.originates hget
  unfold Rule.all
  split
  · next r hr => exact heach r (hr ▸ List.mem_cons_self)
  · exact .node nofun fun _ => heach

/-- An error is found by one rule of the tree, the only one with errors of its own whose path has
that text, and its path is that of the keyword in one of the schemas. -/
theorem error_traced_back (limits : Limits) (root : String) (schema : Value) (rule : Rule)
    (h : compile limits root schema = .ok rule) (v : Value) (e : ValidationError)
    (he : rule.evaluate v .root = .error e) :
    ∃ indices node w, rule.Finds v e indices node w ∧
      (∀ others other, rule.descendant? others = some other → other.reports = true →
        other.path.text = e.path.text → others = indices) ∧
      ∃ steps fields given, Subschema schema steps (.obj fields) ∧
        Fields.get? e.keyword.inSchema.name fields = some given ∧
        e.path.text = (SchemaPath.mk root steps).text ++ "/" ++ e.keyword.name := by
  obtain ⟨indices, node, w, hfinds⟩ := Rule.exists_finds he
  obtain ⟨hdistinct, -⟩ := distinct_of_compile h
  have hat : rule.ReportsAt e.path indices := ⟨node, hfinds.reached, hfinds.reports, hfinds.path⟩
  refine ⟨indices, node, w, hfinds, fun others other hother hreports htext => ?_, ?_⟩
  · have hother' : rule.ReportsAt other.path others := ⟨other, hother, hreports, rfl⟩
    obtain ⟨_, hunder⟩ := hdistinct.under _ _ hat
    obtain ⟨_, hunder'⟩ := hdistinct.under _ _ hother'
    have hroot : other.path.root = e.path.root := by rw [hunder, hunder']
    rw [SchemaPath.eq_of_text_eq hroot htext] at hother'
    exact hdistinct.unique e.path others indices hother' hat
  · obtain ⟨steps, fields, given, hsub, hget, hpath⟩ := originates_of_compile h indices node
      hfinds.reached hfinds.reports fun a ha => (hfinds.passed a ha).2
    rw [hfinds.keyword] at hget
    rw [hfinds.path, hfinds.keyword] at hpath
    exact ⟨steps, fields, given, hsub, hget, by rw [hpath, SchemaPath.text_key]; rfl⟩

/-- Lists of a flag, further items of which hold a text. -/
def flagThenSomeText : Value := .obj [
  ("additionalItems", .obj [("contains", .obj [("type", .str "string")])]),
  ("items", .arr [.obj [("type", .str "boolean")]])]

/-- The second item holds no text. -/
def flagThenNoText : Value := .arr [.bool true, .arr [.null]]

theorem traced_flagThenNoText : ∃ rule e, compile .default "root" flagThenSomeText = .ok rule ∧
    rule.evaluate flagThenNoText .root = .error e ∧
    ∃ indices node w, rule.Finds flagThenNoText e indices node w ∧
      (∀ others other, rule.descendant? others = some other → other.reports = true →
        other.path.text = e.path.text → others = indices) ∧
      ∃ steps fields given, Subschema flagThenSomeText steps (.obj fields) ∧
        Fields.get? e.keyword.inSchema.name fields = some given ∧
        e.path.text = (SchemaPath.mk "root" steps).text ++ "/" ++ e.keyword.name :=
  ⟨_, _, rfl, rfl, error_traced_back .default "root" flagThenSomeText _ rfl flagThenNoText _ rfl⟩

end Schema

end JsonRules
