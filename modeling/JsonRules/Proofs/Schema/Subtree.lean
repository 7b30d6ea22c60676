import JsonRules.Proofs.Schema.Path
import JsonRules.Proofs.Schema.Transfer
import JsonRules.Proofs.Schema.Visits
import JsonRules.Proofs.Schema.WellFormed

/-!
# Compilation by parts

The tree of a schema holds the tree of every schema that is compiled with it, and that tree depends
on nothing but that schema: compiled alone, with the levels that are left for it, the schema gives
the same tree, but for the path that it starts from.
-/

namespace JsonRules

namespace SchemaPath

theorem text_eq (p : SchemaPath) : p.text = p.root ++ text ⟨"", p.steps⟩ := by
  apply String.toList_inj.1
  simp [toList_text, String.toList_append]

theorem text_append (outer inner : SchemaPath) :
    (outer.append inner).text = outer.text ++ text ⟨"", inner.steps⟩ := by
  apply String.toList_inj.1
  simp [toList_text, append, String.toList_append]

end SchemaPath

namespace Schema

variable {limits : Limits} {path : SchemaPath} {fields : Fields}

section Part

variable {limits : PatternLimits} {Sub : SchemaPath → Value → Rule → Prop}
  {part : Keyword → Option Rule}

/-- No keyword of a schema gives a rule that joins others. -/
theorem GivesEach.parts (h : GivesEach limits Sub path fields part) :
    (Rule.all path (Keyword.inOrder.filterMap part)).parts = Keyword.inOrder.filterMap part := by
  have hjoin : ∀ r ∈ Keyword.inOrder.filterMap part, r.parts = [r] := by
    intro r hr
    obtain ⟨k, hk, hpart⟩ := List.mem_filterMap.1 hr
    obtain ⟨v, -, hgives⟩ := h.exists_gives hk hpart
    cases hgives <;> rfl
  generalize Keyword.inOrder.filterMap part = rules at hjoin
  match rules with
  | [] => rfl
  | [r] => exact hjoin r List.mem_cons_self
  | _ :: _ :: _ => rfl

/-- The tree of a schema has the rule of each of its keywords. -/
theorem GivesEach.part? (h : GivesEach limits Sub path fields part) {k : Keyword}
    (hk : k ∈ Keyword.inOrder) :
    (Rule.all path (Keyword.inOrder.filterMap part)).part? k = part k := by
  have hkeyword : ∀ l ∈ Keyword.inOrder, ∀ r, part l = some r → r.keyword.inSchema = l := by
    intro l hl r hr
    obtain ⟨v, -, hgives⟩ := h.exists_gives hl hr
    exact hgives.inSchema_keyword
  rw [Rule.part?, h.parts]
  cases hfind : (Keyword.inOrder.filterMap part).find? fun r => r.keyword.inSchema = k with
  | some r =>
    obtain ⟨l, hl, hr⟩ := List.mem_filterMap.1 (List.mem_of_find?_eq_some hfind)
    have hrk : r.keyword.inSchema = k := by simpa using List.find?_some hfind
    rw [← hrk, hkeyword l hl r hr, hr]
  | none =>
    cases hpart : part k with
    | none => rfl
    | some r =>
      have hne := List.find?_eq_none.1 hfind r (List.mem_filterMap.2 ⟨k, hk, hpart⟩)
      exact absurd (hkeyword k hk r hpart) (by simpa using hne)

end Part

/-- The schemas that a schema holds are compiled one level further down, and their trees lie in its
tree. -/
theorem compileAt_held {levels : Nat} {tree : Rule}
    (h : compileAt limits (levels + 1) path (.obj fields) = .ok tree) {k : Keyword}
    (hk : k ∈ Keyword.inOrder) {m : List PathStep × Value} (hm : m ∈ heldBy fields k) :
    ∃ r, compileAt limits levels ⟨path.root, path.steps ++ m.1⟩ m.2 = .ok r ∧
      ∀ rest, tree.subtree? (m.1 ++ rest) = r.subtree? rest := by
  obtain ⟨_, part, heq, rfl, hparts⟩ := compileAt_ok (fun _ _ _ hsub => hsub) h
  cases heq
  have hgives := hparts k hk
  cases hget : Fields.get? k.name fields with
  | none => rw [heldBy_of_none hget] at hm; cases hm
  | some v =>
    rw [hget] at hgives
    obtain ⟨rule, r, hpart, hr, hsubtree⟩ := Gives.held hgives hget hm
    exact ⟨r, hr, hsubtree _ ((hparts.part? hk).trans hpart)⟩

/-- The tree of a schema that lies in another one lies in the tree of that one. -/
theorem compileAt_subschema {levels : Nat} {schema sub : Value} {tree : Rule}
    {steps : List PathStep} (h : compileAt limits levels path schema = .ok tree)
    (hsub : Subschema schema steps sub) :
    ∃ left r, levels = left + depthOf steps ∧ tree.subtree? steps = some r ∧
      compileAt limits left ⟨path.root, path.steps ++ steps⟩ sub = .ok r := by
  induction levels generalizing path schema tree steps with
  | zero => cases h
  | succ levels ih =>
    obtain ⟨rfl, rfl⟩ | ⟨fields, k, m, rest, rfl, hk, hm, rfl, hbelow⟩ := hsub.cases_held
    · exact ⟨levels + 1, tree, rfl, rfl, by rw [List.append_nil]; exact h⟩
    · obtain ⟨r, hr, hsubtree⟩ := compileAt_held h hk hm
      obtain ⟨left, s, rfl, hs, hleft⟩ := ih hr hbelow
      refine ⟨left, s, ?_, by rw [hsubtree, hs], by rw [← List.append_assoc]; exact hleft⟩
      rw [depthOf_append, depthOf_heldBy hm]
      omega

section Root

variable {root : String} {schema : Value}

/-- All rules of a tree have paths from its root on. -/
theorem root_of_compile {tree : Rule} (h : compile limits root schema = .ok tree)
    {indices : List Nat} {node : Rule} (hnode : tree.descendant? indices = some node) :
    node.path.root = root := by
  have hself := (compile_root limits root root schema).ok h
  rw [h] at hself
  rw [Except.ok.inj hself, Rule.descendant?_map] at hnode
  obtain ⟨before, -, rfl⟩ := Option.map_eq_some_iff.1 hnode
  rw [Rule.path_map]
  rfl

theorem root_of_error {e : SchemaError} (h : compile limits root schema = .error e) :
    e.path.root = root := by
  have hself := (compile_root limits root root schema).error trivial h
  rw [h] at hself
  exact congrArg (fun e => e.path.root) (Except.error.inj hself)

end Root

/-- What a schema gives at a path, with some levels left, is what it gives alone at any root under
a limit of so many levels, moved to the path. -/
theorem compile_alone {left : Nat} {p : String} {steps : List PathStep} {sub : Value} {r : Rule}
    (h : compileAt limits (left + 1) ⟨p, steps⟩ sub = .ok r) (q : String) :
    ∃ alone, compile ⟨left, limits.pattern⟩ q sub = .ok alone ∧
      r = alone.map (SchemaPath.append ⟨p, steps⟩) id := by
  have hthere : compileAt ⟨left, limits.pattern⟩ (left + 1) ⟨p, steps⟩ sub = .ok r :=
    compileAt_larger h (Nat.le_refl _) rfl (Nat.le_refl _)
  have hmoved := compileAt_moved ⟨left, limits.pattern⟩ (left + 1) ⟨p, steps⟩ (.ofRoot q) sub
  have hbase : SchemaPath.append ⟨p, steps⟩ (.ofRoot q) = ⟨p, steps⟩ :=
    congrArg (SchemaPath.mk p) (List.append_nil steps)
  rw [hbase, hthere] at hmoved
  cases halone : compile ⟨left, limits.pattern⟩ q sub with
  | ok alone => exact ⟨alone, rfl, Except.ok.inj (hmoved.ok halone)⟩
  | error e => cases hmoved.error trivial halone

/-- Compilation is compositional, and parametric in the root. The tree of a schema that lies in
another one is what that schema gives alone at any root, with as many levels fewer as it lies deep;
and the root is what its paths start with, in which it can be replaced. -/
theorem compile_compositional (limits : Limits) (p q : String) (schema : Value) :
    (∀ tree, compile limits p schema = .ok tree → ∀ steps sub, Subschema schema steps sub →
      depthOf steps ≤ limits.depth ∧ ∃ alone,
        compile ⟨limits.depth - depthOf steps, limits.pattern⟩ q sub = .ok alone ∧
        tree.subtree? steps = some (alone.map (SchemaPath.append ⟨p, steps⟩) id) ∧
        ∀ indices node, alone.descendant? indices = some node →
          ∃ rest, node.path.text = q ++ rest ∧
            (SchemaPath.append ⟨p, steps⟩ node.path).text = SchemaPath.text ⟨p, steps⟩ ++ rest) ∧
    ∀ e, compile limits p schema = .error e →
      ∃ again, compile limits q schema = .error again ∧ again.defect = e.defect ∧
        ∃ rest, e.path.text = p ++ rest ∧ again.path.text = q ++ rest := by
  constructor
  · intro tree h steps sub hsub
    obtain ⟨left, r, hlevels, hr, hleft⟩ := compileAt_subschema h hsub
    cases left with
    | zero => cases hleft
    | succ left =>
      have hdepth : limits.depth - depthOf steps = left := by omega
      obtain ⟨alone, halone, rfl⟩ := compile_alone hleft q
      refine ⟨by omega, alone, by rw [hdepth]; exact halone, hr, fun indices node hnode => ?_⟩
      refine ⟨SchemaPath.text ⟨"", node.path.steps⟩, ?_, SchemaPath.text_append _ _⟩
      rw [node.path.text_eq, root_of_compile halone hnode]
  · intro e h
    refine ⟨_, (compile_root limits p q schema).error trivial h, rfl,
      SchemaPath.text ⟨"", e.path.steps⟩, ?_, SchemaPath.text_append _ _⟩
    rw [e.path.text_eq, root_of_error h]

/-- A list of any item and of an array with null in it. -/
def nullInSecond : Value := .obj [
  ("items", .arr [.obj [], .obj [("contains", .obj [("type", .str "null")])]])]

theorem compile_nullInSecond : ∃ tree alone, compile .default "root" nullInSecond = .ok tree ∧
    compile ⟨98, .default⟩ "part" (.obj [("type", .str "null")]) = .ok alone ∧
      tree.subtree? [.keyword .items, .index 1, .keyword .contains] = some (alone.map
        (SchemaPath.append ⟨"root", [.keyword .items, .index 1, .keyword .contains]⟩) id) := by
  have hsub : Subschema nullInSecond [.keyword .items, .index 1, .keyword .contains]
      (.obj [("type", .str "null")]) := .place rfl rfl (.contains rfl (.self _))
  obtain ⟨-, alone, halone, hsubtree, -⟩ :=
    (compile_compositional .default "root" "part" nullInSecond).1 _ rfl _ _ hsub
  exact ⟨_, alone, rfl, halone, hsubtree⟩

end Schema

end JsonRules
