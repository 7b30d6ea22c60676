import JsonRules.Proofs.Rule.Accept
import JsonRules.Proofs.Schema.Path
import JsonRules.Proofs.Schema.Transfer
import JsonRules.Proofs.Schema.Visits
import JsonRules.Schema.Extends

/-!
# More keywords accept less

A schema that extends another one accepts no value that the other one rejects. Of two trees, one
narrows the other if it accepts no more values; every rule that applies the rules below it to items
hands this on from them.
-/

namespace JsonRules

/-- The first rule accepts no more than the second one. -/
def Rule.Narrows (r s : Rule) : Prop := ∀ v, r.Accepts Check.Holds v → s.Accepts Check.Holds v

namespace Rule.Narrows

variable {r s : Rule} {path : SchemaPath}

theorem refl (r : Rule) : r.Narrows r := fun _ h => h

theorem itemsUniform (h : r.Narrows s) :
    (Rule.itemsUniform path r).Narrows (Rule.itemsUniform path s) := by
  intro v hv
  rw [accepts_itemsUniform] at hv ⊢
  exact fun x hx => h x (hv x hx)

theorem itemsPositional {rs ss : List Rule}
    (h : ∀ (i : Nat) (s : Rule), ss[i]? = some s → ∃ r, rs[i]? = some r ∧ r.Narrows s) :
    (Rule.itemsPositional path rs).Narrows (Rule.itemsPositional path ss) := by
  intro v hv
  rw [accepts_itemsPositional] at hv ⊢
  intro i s x hs hx
  obtain ⟨r, hr, hnarrows⟩ := h i s hs
  exact hnarrows x (hv i r x hr hx)

theorem additionalItems {offset : Nat} (h : r.Narrows s) :
    (Rule.additionalItems path offset r).Narrows (Rule.additionalItems path offset s) := by
  intro v hv
  rw [accepts_additionalItems] at hv ⊢
  exact fun x hx => h x (hv x hx)

theorem contains (h : r.Narrows s) : (Rule.contains path r).Narrows (Rule.contains path s) := by
  intro v hv
  rw [accepts_contains] at hv ⊢
  intro items hitems
  obtain ⟨x, hx, haccepts⟩ := hv items hitems
  exact ⟨x, hx, h x haccepts⟩

/-- Rules that are joined accept no more than others if each of these has one that narrows it. -/
theorem all {rs ss : List Rule} (h : ∀ s ∈ ss, ∃ r ∈ rs, r.Narrows s) :
    (Rule.all path rs).Narrows (Rule.all path ss) := by
  intro v hv
  rw [accepts_all] at hv ⊢
  intro s hs
  obtain ⟨r, hr, hnarrows⟩ := h s hs
  exact hnarrows v (hv r hr)

end Rule.Narrows

namespace Schema

/-- It is enough to look at the members that are listed. -/
theorem Extends.of_members {more fields : Fields}
    (h : ∀ m ∈ fields, ∃ w, Fields.get? m.1 more = some w ∧ Keeps m.1 w m.2) :
    Extends (.obj more) (.obj fields) := by
  refine .obj (fun name v hv => ?_) fun name v w hv hw => ?_
  · obtain ⟨w, hw, -⟩ := h (name, v) (Fields.mem_of_get? hv)
    exact Option.isSome_iff_exists.2 ⟨w, hw⟩
  · obtain ⟨u, hu, hkeeps⟩ := h (name, v) (Fields.mem_of_get? hv)
    obtain rfl : u = w := Option.some.inj (hu.symm.trans hw)
    exact hkeeps

theorem Extends.of_obj {more : Value} {fields : Fields} (h : Extends more (.obj fields)) :
    ∃ other, more = .obj other ∧ ∀ name v, Fields.get? name fields = some v →
      ∃ w, Fields.get? name other = some w ∧ Keeps name w v := by
  cases h with
  | refl => exact ⟨fields, rfl, fun name v hv => ⟨v, hv, .refl name v⟩⟩
  | obj has keeps =>
    refine ⟨_, rfl, fun name v hv => ?_⟩
    obtain ⟨w, hw⟩ := Option.isSome_iff_exists.1 (has name v hv)
    exact ⟨w, hw, keeps name v w hv hw⟩

theorem Keeps.of_obj {name : String} {w : Value} {members : Fields}
    (h : Keeps name w (.obj members)) :
    ∃ more, w = .obj more ∧ Extends (.obj more) (.obj members) := by
  cases h with
  | refl => exact ⟨members, rfl, .refl _⟩
  | schema _ extended => exact ⟨_, rfl, extended⟩

theorem Keeps.of_arr {name : String} {w : Value} {schemas : List Value}
    (h : Keeps name w (.arr schemas)) :
    ∃ more, w = .arr more ∧ more.length = schemas.length ∧ ∀ (i : Nat) (s t : Value),
      schemas[i]? = some s → more[i]? = some t → Extends t s := by
  cases h with
  | refl =>
    refine ⟨schemas, rfl, rfl, fun i s t hs ht => ?_⟩
    obtain rfl : s = t := Option.some.inj (hs.symm.trans ht)
    exact .refl s
  | places length extended => exact ⟨_, rfl, length, extended⟩

/-- Members that hold no schema stay as they are. -/
theorem Keeps.eq_of_not_mem {name : String} {v w : Value} (h : Keeps name w v)
    (hname : name ∉ schemaNames) : w = v := by
  cases h with
  | refl => rfl
  | schema holds _ => exact absurd holds hname
  | places _ _ => exact absurd (by decide) hname

theorem not_mem_schemaNames {k : Keyword} (hk : ¬(PathStep.keyword k).descends = true) :
    k.name ∉ schemaNames := by
  intro hname
  simp only [schemaNames, List.mem_cons, List.not_mem_nil, or_false,
    Keyword.name_injective.eq_iff] at hname
  obtain rfl | rfl | rfl := hname <;> exact hk rfl

section Narrows

variable {limits : Limits} {levels : Nat} {path : SchemaPath} {fields other : Fields} {k : Keyword}

/-- What a schema gives at a path where it extends another one narrows what that one gives. -/
def NarrowsAt (limits : Limits) (levels : Nat) : Prop :=
  ∀ {path : SchemaPath} {schema more : Value} {rule narrow : Rule}, Extends more schema →
    compileAt limits levels path schema = .ok rule →
      compileAt limits levels path more = .ok narrow → narrow.Narrows rule

theorem narrows_keyword (ih : NarrowsAt limits levels) (hk : k ∈ Keyword.inOrder)
    (hfields : ∀ name v, Fields.get? name fields = some v →
      ∃ w, Fields.get? name other = some w ∧ Keeps name w v) {rule : Rule} {narrow? : Option Rule}
    (h : keywordRule limits.pattern (compileAt limits levels) path fields k = .ok (some rule))
    (hmore : keywordRule limits.pattern (compileAt limits levels) path other k = .ok narrow?) :
    ∃ narrow, narrow? = some narrow ∧ narrow.Narrows rule := by
  cases hget : Fields.get? k.name fields with
  | none => rw [keywordRule_of_none hget] at h; cases h
  | some v =>
    obtain ⟨w, hw, hkeeps⟩ := hfields k.name v hget
    rw [keywordRule_of_some hget] at h
    rw [keywordRule_of_some hw] at hmore
    have hgives : Gives _ (fun p s r => compileAt limits levels p s = .ok r) path fields k v _ :=
      valueRule_ok (fun _ _ _ => id) hk h
    have hnarrow : Gives _ (fun p s r => compileAt limits levels p s = .ok r) path other k w _ :=
      valueRule_ok (fun _ _ _ => id) hk hmore
    by_cases hdesc : (PathStep.keyword k).descends = true
    · cases hgives with
      | items sub =>
        obtain ⟨more, rfl, hext⟩ := hkeeps.of_obj
        cases hnarrow with
        | items narrow => exact ⟨_, rfl, .itemsUniform (ih hext sub narrow)⟩
      | places length sub =>
        obtain ⟨more, rfl, hlen, hext⟩ := hkeeps.of_arr
        cases hnarrow with
        | places narrowLength narrow =>
          refine ⟨_, rfl, .itemsPositional fun i r hr => ?_⟩
          obtain ⟨hi, rfl⟩ := List.getElem?_eq_some_iff.1 hr
          have hs := length ▸ hi
          have ht := hlen ▸ hs
          have hn := narrowLength ▸ ht
          refine ⟨_, List.getElem?_eq_getElem hn, ?_⟩
          have hextended := hext i _ _ (List.getElem?_eq_getElem hs) (List.getElem?_eq_getElem ht)
          exact ih hextended (sub i hs hi) (narrow i ht hn)
      | additionalItems items sub =>
        obtain ⟨more, rfl, hext⟩ := hkeeps.of_obj
        obtain ⟨_, hitems, hkept⟩ := hfields _ _ items
        obtain ⟨schemas, rfl, hlen, -⟩ := hkept.of_arr
        cases hnarrow with
        | additionalItems narrowItems narrow =>
          rw [hitems] at narrowItems
          cases narrowItems
          rw [hlen]
          exact ⟨_, rfl, .additionalItems (ih hext sub narrow)⟩
        | noAdditionalItems hnone => exact absurd hitems (hnone schemas)
      | contains sub =>
        obtain ⟨more, rfl, hext⟩ := hkeeps.of_obj
        cases hnarrow with
        | contains narrow => exact ⟨_, rfl, .contains (ih hext sub narrow)⟩
      | _ => exact absurd hdesc Bool.false_ne_true
    · obtain rfl := hkeeps.eq_of_not_mem (not_mem_schemaNames hdesc)
      rw [valueRule_of_not_descends hdesc _ (compileAt limits levels) other fields, h] at hmore
      exact ⟨rule, (Except.ok.inj hmore).symm, .refl rule⟩

theorem narrowsAt (limits : Limits) (levels : Nat) : NarrowsAt limits levels := by
  induction levels with
  | zero => intro path schema more rule narrow _ h; cases h
  | succ levels ih =>
    intro path schema more rule narrow hext h hmore
    cases schema with
    | obj fields =>
      obtain ⟨other, rfl, hfields⟩ := hext.of_obj
      obtain ⟨rfl, heach⟩ := compileAt_parts h
      obtain ⟨rfl, hmoreEach⟩ := compileAt_parts hmore
      refine .all fun r hr => ?_
      obtain ⟨k, hk, hpart⟩ := List.mem_filterMap.1 hr
      have hrule := heach k hk
      rw [hpart] at hrule
      obtain ⟨s, hs, hnarrows⟩ := narrows_keyword ih hk hfields hrule (hmoreEach k hk)
      exact ⟨s, List.mem_filterMap.2 ⟨k, hk, hs⟩, hnarrows⟩
    | _ => cases h

end Narrows

/-- More keywords only narrow a schema: what a schema accepts that extends another one, that one
accepts. -/
theorem accepts_of_extends {limits : Limits} {schema more : Value} (hext : Extends more schema)
    {p q : String} {rule narrow : Rule} (h : compile limits p schema = .ok rule)
    (hmore : compile limits q more = .ok narrow) (v : Value) (l : Location)
    (haccepts : narrow.evaluate v l = .ok ()) : rule.evaluate v l = .ok () := by
  have hmoved := (compile_root limits q p more).ok hmore
  rw [Rule.evaluate_eq_ok_iff] at haccepts ⊢
  exact narrowsAt limits _ hext h hmoved v (haccepts.map fun _ _ => id)

/-- A text is among the items; what may follow the items that are listed is not looked at. -/
def withText : Value := .obj [
  ("additionalItems", .obj []),
  ("contains", .obj [("type", .str "string")])]

/-- The text is given, and what follows the first item is a text. -/
def withTextAfter : Value := .obj [
  ("additionalItems", .obj [("type", .str "string")]),
  ("contains", .obj [("const", .str "a"), ("type", .str "string")]),
  ("items", .arr [.obj []])]

theorem extends_withTextAfter : Extends withTextAfter withText := by
  have hadditional : Extends (.obj [("type", .str "string")]) (.obj []) := .of_members nofun
  have hcontains : Extends (.obj [("const", .str "a"), ("type", .str "string")])
      (.obj [("type", .str "string")]) :=
    .of_members (List.forall_mem_singleton.2 ⟨_, rfl, .refl _ _⟩)
  exact .of_members (List.forall_mem_cons.2 ⟨⟨_, rfl, .schema (by decide) hadditional⟩,
    List.forall_mem_singleton.2 ⟨_, rfl, .schema (by decide) hcontains⟩⟩)

theorem accepts_withText : ∃ rule narrow, compile .default "root" withText = .ok rule ∧
    compile .default "root" withTextAfter = .ok narrow ∧
      narrow.evaluate (.arr [.null, .str "a"]) .root = .ok () ∧
        rule.evaluate (.arr [.null, .str "a"]) .root = .ok () := by
  have h : ∃ rule, compile .default "root" withText = .ok rule := ⟨_, rfl⟩
  have hmore : ∃ narrow, compile .default "root" withTextAfter = .ok narrow ∧
    narrow.evaluate (.arr [.null, .str "a"]) .root = .ok () := ⟨_, rfl, by rfl⟩
  obtain ⟨rule, h⟩ := h
  obtain ⟨narrow, hmore, haccepts⟩ := hmore
  exact ⟨rule, narrow, h, hmore, haccepts,
    accepts_of_extends extends_withTextAfter h hmore _ _ haccepts⟩

end Schema

end JsonRules
