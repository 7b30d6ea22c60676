import JsonRules.Proofs.Schema.Everywhere
import JsonRules.Proofs.Value.Key
import JsonRules.Rule.WellFormed

/-!
# Compiled trees are well formed

Each rule of a compiled tree is arranged as its keyword asks, additional items are checked right
after the items at places, and no more schemas lie in one another than the limit allows.
-/

namespace JsonRules

/-- What elements are mapped to can be traced back to them, so it comes in their order. -/
theorem map_filterMap_of_inverse {α β : Type} {f : α → Option β} {g : β → α} {l : List α}
    (h : ∀ a ∈ l, ∀ b, f a = some b → g b = a) :
    (l.filterMap f).map g = l.filter fun a => (f a).isSome := by
  induction l with
  | nil => rfl
  | cons a rest ih =>
    obtain ⟨ha, hrest⟩ := List.forall_mem_cons.1 h
    cases hf : f a with
    | none => simp [hf, ih hrest]
    | some b => simp [hf, ih hrest, ha b hf]

namespace Check

/-- The entries of a list of values: each under its key, and no key twice. -/
theorem keyed_spec (values : List Value) :
    (∀ entry ∈ keyed values, entry.2 ∈ values ∧ entry.1 = entry.2.key) ∧
      (keyed values).Pairwise fun a b => a.1 ≠ b.1 := by
  induction values with
  | nil => exact ⟨nofun, .nil⟩
  | cons v rest ih =>
    obtain ⟨hmem, hpair⟩ := ih
    rw [keyed]
    constructor
    · rw [List.forall_mem_cons]
      refine ⟨⟨List.mem_cons_self, rfl⟩, fun entry he => ?_⟩
      obtain ⟨hv, hk⟩ := hmem entry (List.mem_of_mem_filter he)
      exact ⟨List.mem_cons_of_mem _ hv, hk⟩
    · refine List.pairwise_cons.2 ⟨fun entry he => ?_, hpair.filter _⟩
      have hne := (List.mem_filter.1 he).2
      rw [bne_iff_ne] at hne
      exact hne.symm

theorem wellFormed_enumeration {values : List Value} (ho : ∀ v ∈ values, v.Ordered) :
    (enumeration values).WellFormed := by
  obtain ⟨hmem, hpair⟩ := keyed_spec (values.filter fun v => !v.isNull)
  refine ⟨fun entry he => ?_, hpair.imp_of_mem fun {a b} ha hb hne => ?_⟩
  · obtain ⟨hv, hk⟩ := hmem entry he
    refine ⟨fun hnull => ?_, hk⟩
    rw [hnull] at hv
    exact absurd (List.mem_filter.1 hv).2 (by decide)
  · obtain ⟨hav, hak⟩ := hmem a ha
    obtain ⟨hbv, hbk⟩ := hmem b hb
    have hao := ho _ (List.mem_of_mem_filter hav)
    have hbo := ho _ (List.mem_of_mem_filter hbv)
    rw [hak, hbk] at hne
    rw [Bool.eq_false_iff, Bool.eq_false_iff, Ne, Ne, ← Value.key_eq_iff hao hbo,
      ← Value.key_eq_iff hbo hao]
    exact ⟨hne, hne.symm⟩

theorem not_dividesByZero {c : Check} (h : c.WellFormed) (v : Value) : ¬c.DividesByZero v := by
  intro hzero
  cases c with
  | multipleOf divisor =>
    cases v with
    | num n =>
      have hpos : 1 ≤ divisor := h
      have hdiv : divisor = 0 := hzero.1
      omega
    | _ => exact hzero
  | _ => exact hzero

end Check

namespace Rule

/-- Going along the indices of a list and then along further ones. -/
theorem descendant?_append (rule : Rule) (before rest : List Nat) :
    rule.descendant? (before ++ rest) =
      (rule.descendant? before).bind fun r => r.descendant? rest := by
  induction before generalizing rule with
  | nil => rw [descendant?]; rfl
  | cons i before ih =>
    rw [List.cons_append, descendant?, descendant?, Option.bind_assoc]
    exact congrArg _ (funext fun child => ih child)

theorem descendant?_one (rule : Rule) (i : Nat) : rule.descendant? [i] = rule.children[i]? := by
  rw [descendant?]
  cases rule.children[i]? <;> simp [descendant?]

/-- Below a rule additional items are checked only where they follow the items at their places. -/
def ChildrenFollow (rule : Rule) : Prop :=
  ∀ i path offset r, rule.children[i]? = some (additionalItems path offset r) →
    ∃ j, i = j + 1 ∧ ∃ whole rules place rulesOfItems, rule = allOf whole rules ∧
      rules[j]? = some (itemsPositional place rulesOfItems) ∧ rulesOfItems.length = offset

/-- What holds of each rule's children holds in the tree if its root is not for additional items. -/
theorem followsItems_of_children {tree : Rule} (hroot : tree.keyword ≠ .additionalItems)
    (h : tree.Everywhere ChildrenFollow) {indices : List Nat} {path : SchemaPath} {offset : Nat}
    {r : Rule} (hr : tree.descendant? indices = some (additionalItems path offset r)) :
    tree.FollowsItems indices offset := by
  rcases List.eq_nil_or_concat indices with rfl | ⟨before, i, rfl⟩
  · rw [descendant?] at hr
    cases hr
    exact absurd rfl hroot
  · rw [List.concat_eq_append, descendant?_append] at hr
    obtain ⟨parent, hparent, hr⟩ := Option.bind_eq_some_iff.1 hr
    rw [descendant?_one] at hr
    obtain ⟨j, rfl, whole, rules, place, rulesOfItems, rfl, hitems, hlen⟩ :=
      h before parent hparent i path offset r hr
    exact ⟨before, j, whole, rules, place, rulesOfItems, by rw [List.concat_eq_append], hparent,
      hitems, hlen⟩

/-- Fewer than the given number of rules on the way to any rule of the tree lead a schema down. -/
def Within (levels : Nat) (tree : Rule) : Prop :=
  ∀ indices r, tree.descendant? indices = some r →
    (tree.above indices).countP descends < levels

theorem above_cons {rule child : Rule} {i : Nat} (h : rule.children[i]? = some child)
    (rest : List Nat) : rule.above (i :: rest) = rule :: child.above rest := by
  rw [above, h, Option.elim_some]

theorem within_of_children {levels : Nat} {rule : Rule} (hpos : 0 < levels)
    (h : ∀ r ∈ rule.children, r.Within (if rule.descends then levels - 1 else levels)) :
    rule.Within levels := by
  intro indices r hr
  cases indices with
  | nil => rw [above]; exact hpos
  | cons i rest =>
    obtain ⟨child, hchild, hr⟩ := descendant?_cons.1 hr
    have hcount := h child (List.mem_of_getElem? hchild) rest r hr
    rw [above_cons hchild, List.countP_cons]
    cases hd : rule.descends with
    | true =>
      rw [hd, if_pos rfl] at hcount
      rw [if_pos rfl]
      omega
    | false =>
      rw [hd, if_neg Bool.false_ne_true] at hcount
      rwa [if_neg Bool.false_ne_true, Nat.add_zero]

end Rule

namespace Schema

section Gives

variable {limits : PatternLimits} {Sub : SchemaPath → Value → Rule → Prop} {path : SchemaPath}
  {fields : Fields} {k : Keyword} {given : Value} {rule : Rule}

theorem Gives.inSchema_keyword (h : Gives limits Sub path fields k given (some rule)) :
    rule.keyword.inSchema = k := by
  cases h <;> rfl

theorem kind?_anyKind (path : SchemaPath) (kinds : List Kind) :
    (anyKind path kinds).children.map Rule.kind? = kinds.map some := by
  refine List.ext_getElem (by simp [anyKind, Rule.children]) fun i h _ => ?_
  simp [anyKind, Rule.children, Rule.kind?]

theorem Gives.arranged (ho : given.Ordered)
    (h : Gives limits Sub path fields k given (some rule)) : rule.Arranged := by
  cases h with
  | types nonempty nodup =>
    refine ⟨fun hnil => nonempty ?_, _, nodup, kind?_anyKind _ _⟩
    rwa [List.mapIdx_eq_nil_iff] at hnil
  | enum values => exact Check.wellFormed_enumeration (Value.ordered_arr.1 ho)
  | multipleOf _ pos => exact pos
  | _ => trivial

variable {part : Keyword → Option Rule}

/-- The keywords that give a rule, in their order. -/
theorem GivesEach.map_inSchema (h : GivesEach limits Sub path fields part) :
    (Keyword.inOrder.filterMap part).map (fun r => r.keyword.inSchema) =
      Keyword.inOrder.filter fun k => (part k).isSome := by
  refine map_filterMap_of_inverse fun k hk r hr => ?_
  obtain ⟨given, -, hgives⟩ := h.exists_gives hk hr
  exact hgives.inSchema_keyword

/-- No keyword gives two rules. -/
theorem GivesEach.place_unique (h : GivesEach limits Sub path fields part) {i j : Nat} {r s : Rule}
    (hr : (Keyword.inOrder.filterMap part)[i]? = some r)
    (hs : (Keyword.inOrder.filterMap part)[j]? = some s)
    (hk : r.keyword.inSchema = s.keyword.inSchema) : i = j := by
  have hnodup : ((Keyword.inOrder.filterMap part).map fun r => r.keyword.inSchema).Nodup := by
    rw [h.map_inSchema]
    exact List.Pairwise.filter _ (by decide)
  obtain ⟨hi, -⟩ := List.getElem?_eq_some_iff.1 hr
  refine (List.getElem?_inj (by rwa [List.length_map]) hnodup).1 ?_
  rw [List.getElem?_map, List.getElem?_map, hr, hs, Option.map_some, Option.map_some, hk]

/-- Where additional items are checked, items are checked at as many places as the offset says. -/
theorem GivesEach.items_of_additionalItems (h : GivesEach limits Sub path fields part)
    {here : SchemaPath} {offset : Nat} {r : Rule}
    (hpart : part .additionalItems = some (.additionalItems here offset r)) :
    ∃ place rules, part .items = some (.itemsPositional place rules) ∧ rules.length = offset := by
  obtain ⟨given, -, hgives⟩ := h.exists_gives (by decide) hpart
  cases hgives with
  | additionalItems items sub =>
    have hitems := h .items (by decide)
    rw [items] at hitems
    generalize part .items = rule? at hitems
    cases hitems with
    | places length _ => exact ⟨_, _, rfl, length⟩

/-- A rule for additional items that a schema has comes from that keyword. -/
theorem GivesEach.part_additionalItems (h : GivesEach limits Sub path fields part)
    {here : SchemaPath} {offset : Nat} {r : Rule}
    (hr : .additionalItems here offset r ∈ Keyword.inOrder.filterMap part) :
    part .additionalItems = some (.additionalItems here offset r) := by
  obtain ⟨k, hk, hpart⟩ := List.mem_filterMap.1 hr
  obtain ⟨given, -, hgives⟩ := h.exists_gives hk hpart
  obtain rfl := hgives.inSchema_keyword
  exact hpart

/-- The keywords before `items`, and those after `additionalItems`. -/
theorem inOrder_split : ∃ before after,
    Keyword.inOrder = before ++ Keyword.items :: Keyword.additionalItems :: after :=
  ⟨Keyword.inOrder.take 11, Keyword.inOrder.drop 13, by decide⟩

theorem GivesEach.childrenFollow (h : GivesEach limits Sub path fields part) :
    (Rule.allOf path (Keyword.inOrder.filterMap part)).ChildrenFollow := by
  intro i here offset r hr
  have hpart := h.part_additionalItems (List.mem_of_getElem? hr)
  obtain ⟨place, rules, hitems, hlen⟩ := h.items_of_additionalItems hpart
  obtain ⟨before, after, hsplit⟩ := inOrder_split
  have hrules : Keyword.inOrder.filterMap part = before.filterMap part ++
      .itemsPositional place rules :: .additionalItems here offset r :: after.filterMap part := by
    rw [hsplit, List.filterMap_append, List.filterMap_cons_some hitems,
      List.filterMap_cons_some hpart]
  refine ⟨(before.filterMap part).length, h.place_unique hr ?_ rfl, _, _, place, rules, rfl, ?_,
    hlen⟩
  · rw [hrules, List.getElem?_append_right (Nat.le_add_right _ 1), Nat.add_sub_cancel_left]
    rfl
  · rw [hrules, List.getElem?_append_right (Nat.le_refl _), Nat.sub_self]
    rfl

end Gives

section Compiled

variable {limits : Limits} {levels : Nat} {path : SchemaPath} {schema : Value} {rule : Rule}

theorem arranged_of_compile (h : compileAt limits levels path schema = .ok rule)
    (ho : schema.Ordered) : rule.Everywhere Rule.Arranged := by
  refine everywhere_of_compile (fun _ _ _ _ _ hparts hlen => ⟨hlen, ?_⟩)
    (fun _ _ _ _ _ _ hgiven hgives => hgives.arranged hgiven) (fun _ _ => trivial) h ho
  rw [hparts.map_inSchema]
  exact List.filter_sublist

/-- No schema is compiled to a rule for additional items, which come with other items. -/
theorem keyword_ne_additionalItems (h : compileAt limits levels path schema = .ok rule) :
    rule.keyword ≠ .additionalItems := by
  cases levels with
  | zero => cases h
  | succ levels =>
    obtain ⟨fields, part, rfl, rfl, hparts⟩ := compileAt_ok (fun _ _ _ h => h) h
    unfold Rule.all
    split
    · next r hr =>
      intro hkey
      cases r with
      | check p c => cases c <;> cases hkey
      | additionalItems here offset r =>
        have hpart := hparts.part_additionalItems (by rw [hr]; exact List.mem_cons_self)
        obtain ⟨place, rules, hitems, -⟩ := hparts.items_of_additionalItems hpart
        have hin : Keyword.items ∈ Keyword.inOrder := by decide
        have hmem := List.mem_filterMap.2 ⟨_, hin, hitems⟩
        rw [hr] at hmem
        cases List.mem_singleton.1 hmem
      | _ => cases hkey
    · exact nofun

theorem childrenFollow_of_compile (h : compileAt limits levels path schema = .ok rule)
    (ho : schema.Ordered) : rule.Everywhere Rule.ChildrenFollow := by
  refine everywhere_of_compile (fun _ _ _ _ _ hparts _ => hparts.childrenFollow)
    (fun _ _ _ _ _ _ _ hgives i here offset r hr => ?_) (fun _ _ _ _ _ _ hr => nomatch hr) h ho
  rcases hgives.children (List.mem_of_getElem? hr) with ⟨p, kind, hc⟩ | ⟨p, s, hs, -⟩
  · cases hc
  · exact absurd rfl (keyword_ne_additionalItems hs)

theorem Gives.within {fields : Fields} {k : Keyword} {given : Value}
    (h : Gives limits.pattern (fun _ _ rule => rule.Within levels) path fields k given
      (some rule)) :
    rule.Within (levels + 1) := by
  refine Rule.within_of_children (Nat.succ_pos _) fun r hr => ?_
  cases h with
  | types =>
    obtain ⟨p, kind, rfl⟩ := mem_anyKind hr
    exact Rule.within_of_children (Nat.succ_pos _) nofun
  | items sub | additionalItems _ sub | contains sub =>
    obtain rfl := List.mem_singleton.1 hr
    exact sub
  | places length sub =>
    obtain ⟨i, hi, rfl⟩ := List.getElem_of_mem hr
    exact sub i (length ▸ hi) hi
  | _ => cases hr

theorem within_of_compile : ∀ {levels path schema rule},
    compileAt limits levels path schema = .ok rule → rule.Within levels := by
  intro levels
  induction levels with
  | zero => intro path schema rule h; cases h
  | succ levels ih =>
    intro path schema rule h
    obtain ⟨fields, part, rfl, rfl, hparts⟩ := compileAt_ok (fun _ _ _ h => ih h) h
    have heach : ∀ r ∈ Keyword.inOrder.filterMap part, r.Within (levels + 1) := by
      intro r hr
      obtain ⟨k, hk, hpart⟩ := List.mem_filterMap.1 hr
      obtain ⟨given, -, hgives⟩ := hparts.exists_gives hk hpart
      exact hgives.within
    unfold Rule.all
    split
    · next r hr => exact heach r (hr ▸ List.mem_cons_self)
    · exact Rule.within_of_children (Nat.succ_pos _) heach

end Compiled

/-- Compiled trees are well formed, and no check in them divides by zero. -/
theorem wellFormed_of_compile (limits : Limits) (root : String) (schema : Json) (rule : Rule)
    (h : compile limits root schema.1 = .ok rule) :
    rule.WellFormed limits.depth ∧
      ∀ indices path c v, rule.descendant? indices = some (.check path c) →
        ¬c.DividesByZero v := by
  have harranged := arranged_of_compile h schema.2
  refine ⟨⟨harranged, fun indices path offset r hr => ?_, fun indices r hr => ?_⟩,
    fun indices path c v hc => ?_⟩
  · exact Rule.followsItems_of_children (keyword_ne_additionalItems h)
      (childrenFollow_of_compile h schema.2) hr
  · exact Nat.le_of_lt_succ (within_of_compile h indices r hr)
  · exact Check.not_dividesByZero (harranged indices _ hc) v

/-- A flag and then even numbers, with a choice of kinds and a list of values for the whole. -/
def flagThenEven : Json := ⟨.obj [
  ("additionalItems", .obj [("multipleOf", .num (.int 2 (by decide)))]),
  ("enum", .arr [.null, .arr [.bool true], .arr [.bool true]]),
  ("items", .arr [.obj [("type", .str "boolean")]]),
  ("type", .arr [.str "array", .str "null"])], by decide⟩

theorem wellFormed_flagThenEven : ∃ rule, compile ⟨1, .default⟩ "root" flagThenEven.1 = .ok rule ∧
    rule.WellFormed 1 ∧ ∀ indices path c v, rule.descendant? indices = some (.check path c) →
      ¬c.DividesByZero v :=
  ⟨_, rfl, wellFormed_of_compile ⟨1, .default⟩ "root" flagThenEven _ rfl⟩

end Schema

end JsonRules
