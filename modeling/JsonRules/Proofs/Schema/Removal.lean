import JsonRules.Proofs.Schema.Subtree
import JsonRules.Schema.Removal

/-!
# Additional items without listed ones

Unless `items` lists schemas, an object as `additionalItems` has no effect: the schema compiles as
it does without it, whatever the object holds and wherever the schema lies in the whole. Anything
else as `additionalItems` is an error before `items` is looked at.

Two runs are compared by `SameUnless`, which every construct of compilation hands on. What lies
beside the part that is changed depends on that part only as far as the number of listed schemas.
-/

namespace JsonRules

namespace Fields

variable {key : String} {f : Value → Value}

@[simp]
theorem get?_erase_self (key : String) (fields : Fields) : get? key (erase key fields) = none := by
  induction fields with
  | nil => rfl
  | cons m rest ih =>
    obtain ⟨k, v⟩ := m
    by_cases hk : k = key
    · rw [erase, List.filter_cons_of_neg (by simpa using hk)]
      exact ih
    · rw [erase, List.filter_cons_of_pos (by simpa using hk), get?, if_neg hk]
      exact ih

theorem get?_erase_of_ne {other : String} (h : other ≠ key) (fields : Fields) :
    get? other (erase key fields) = get? other fields := by
  induction fields with
  | nil => rfl
  | cons m rest ih =>
    obtain ⟨k, v⟩ := m
    by_cases hk : k = key
    · rw [erase, List.filter_cons_of_neg (by simpa using hk), get?, if_neg (hk ▸ h.symm)]
      exact ih
    · rw [erase, List.filter_cons_of_pos (by simpa using hk), get?, get?]
      split
      · rfl
      · exact ih

theorem get?_modify_self {v : Value} {fields : Fields} (h : get? key fields = some v) :
    get? key (modify key f fields) = some (f v) := by
  induction fields with
  | nil => cases h
  | cons m rest ih =>
    obtain ⟨k, x⟩ := m
    rw [get?] at h
    rw [modify]
    split at h
    · next hk =>
      cases h
      rw [if_pos hk, get?, if_pos hk]
    · next hk =>
      rw [if_neg hk, get?, if_neg hk]
      exact ih h

theorem get?_modify_of_ne {other : String} (h : other ≠ key) (fields : Fields) :
    get? other (modify key f fields) = get? other fields := by
  induction fields with
  | nil => rfl
  | cons m rest ih =>
    obtain ⟨k, v⟩ := m
    rw [modify]
    split
    · next hk =>
      have hne : k ≠ other := fun h' => h (h'.symm.trans hk)
      rw [get?, get?, if_neg hne, if_neg hne]
    · rw [get?, get?, ih]

end Fields

/-- The outcomes are the same, but that the first one may be another error that is allowed. -/
def SameUnless {ε α : Type} (allowed : ε → Prop) (x y : Except ε α) : Prop :=
  x = y ∨ ∃ e, allowed e ∧ x = .error e

namespace SameUnless

variable {ε α β : Type} {allowed : ε → Prop} {x y : Except ε α}

theorem refl (x : Except ε α) : SameUnless allowed x x := .inl rfl

theorem bind {f g : α → Except ε β} (h : SameUnless allowed x y)
    (hfg : ∀ a, SameUnless allowed (f a) (g a)) : SameUnless allowed (x >>= f) (y >>= g) := by
  obtain rfl | ⟨e, he, rfl⟩ := h
  · cases x with
    | ok a => exact hfg a
    | error e => exact .inl rfl
  · exact .inr ⟨e, he, rfl⟩

theorem map (f : α → β) (h : SameUnless allowed x y) : SameUnless allowed (f <$> x) (f <$> y) := by
  obtain rfl | ⟨e, he, rfl⟩ := h
  · exact .inl rfl
  · exact .inr ⟨e, he, rfl⟩

end SameUnless

namespace Schema

/-- How many schemas `items` lists. -/
def places? : Option Value → Option Nat
  | some (.arr schemas) => some schemas.length
  | _ => none

section Change

variable {limits : PatternLimits} {compile : SubCompiler} {path : SchemaPath} {fields : Fields}
  {v : Value} {k d : Keyword} {allowed : SchemaError → Prop} {f : Value → Value}

theorem additionalItemsRule?_places {items others : Option Value}
    (h : places? items = places? others) (v : Value) :
    additionalItemsRule? compile path items v = additionalItemsRule? compile path others v := by
  cases v with
  | obj members =>
    simp only [additionalItemsRule?]
    unfold places? at h
    split at h <;> split at h <;> simp_all
  | _ => rfl

/-- What a keyword gives depends on the others only by how many schemas `items` lists. -/
theorem valueRule_places {other : Fields}
    (h : places? (Fields.get? Keyword.items.name fields) =
      places? (Fields.get? Keyword.items.name other)) (v : Value) (k : Keyword) :
    valueRule limits compile path fields v k = valueRule limits compile path other v k := by
  cases k with
  | additionalItems => exact additionalItemsRule?_places h v
  | _ => rfl

theorem keywordRules_sameUnless {other : Fields}
    (h : ∀ k, SameUnless allowed (keywordRule limits compile path fields k)
      (keywordRule limits compile path other k)) (ks : List Keyword) :
    SameUnless allowed (keywordRules limits compile path fields ks)
      (keywordRules limits compile path other ks) := by
  induction ks with
  | nil => exact .refl _
  | cons k rest ih => exact (h k).bind fun _ => ih.bind fun _ => .refl _

/-- A change of one keyword shows only in what that keyword gives, if it keeps the number of listed
schemas. -/
theorem keywordRule_modify (hget : Fields.get? d.name fields = some v)
    (hplaces : places? (some (f v)) = places? (some v))
    (h : SameUnless allowed (valueRule limits compile path fields v d)
      (valueRule limits compile path fields (f v) d)) (k : Keyword) :
    SameUnless allowed (keywordRule limits compile path fields k)
      (keywordRule limits compile path (Fields.modify d.name f fields) k) := by
  have hitems : places? (Fields.get? Keyword.items.name (Fields.modify d.name f fields)) =
      places? (Fields.get? Keyword.items.name fields) := by
    by_cases hd : d = .items
    · subst hd
      rw [Fields.get?_modify_self hget, hget, hplaces]
    · rw [Fields.get?_modify_of_ne fun h => hd (Keyword.name_injective h).symm]
  by_cases hk : k = d
  · subst hk
    rw [keywordRule_of_some hget, keywordRule_of_some (Fields.get?_modify_self hget),
      valueRule_places hitems]
    exact h
  · unfold keywordRule
    rw [Fields.get?_modify_of_ne fun h => hk (Keyword.name_injective h)]
    split
    · exact .refl _
    · next w hw => rw [valueRule_places hitems w k]; exact .refl _

theorem compileEach_modify {schemas : List Value} {i : Nat} {s : Value} (hs : schemas[i]? = some s)
    {start : Nat} (h : SameUnless allowed (compile (path.index (start + i)) s)
      (compile (path.index (start + i)) (f s))) :
    SameUnless allowed (compileEach compile path start schemas)
      (compileEach compile path start (schemas.modify i f)) := by
  induction schemas generalizing i start with
  | nil => cases hs
  | cons schema rest ih =>
    cases i with
    | zero =>
      cases hs
      exact h.bind fun _ => .refl _
    | succ i =>
      rw [List.modify_succ_cons, compileEach, compileEach]
      refine (SameUnless.refl _).bind fun _ => (ih hs ?_).bind fun _ => .refl _
      rw [Nat.add_assoc, Nat.add_comm 1 i]
      exact h

theorem compileAt_modify_keyword {limits : Limits} {levels : Nat}
    (hget : Fields.get? d.name fields = some v) (hplaces : places? (some (f v)) = places? (some v))
    (h : SameUnless allowed (valueRule limits.pattern (compileAt limits levels) path fields v d)
      (valueRule limits.pattern (compileAt limits levels) path fields (f v) d)) :
    SameUnless allowed (compileAt limits (levels + 1) path (.obj fields))
      (compileAt limits (levels + 1) path (.obj (Fields.modify d.name f fields))) :=
  (keywordRules_sameUnless (keywordRule_modify hget hplaces h) _).bind fun _ => .refl _

/-- An object stays one when a part of it is changed, if it does when it is changed itself. -/
theorem modify_obj (hf : ∀ members, ∃ others, f (.obj members) = .obj others)
    (steps : List PathStep) (members : Fields) :
    ∃ others, (Value.obj members).modify f steps = .obj others := by
  match steps with
  | [] => exact hf members
  | .keyword k :: rest => exact ⟨_, rfl⟩
  | .index i :: rest => exact ⟨members, rfl⟩

/-- A change of a schema that keeps objects shows in the whole only as far as it shows in what that
schema gives. -/
theorem compileAt_modify {limits : Limits} {schema sub : Value} {steps : List PathStep}
    (hsub : Subschema schema steps sub) (hf : ∀ members, ∃ others, f (.obj members) = .obj others)
    {levels : Nat} {path : SchemaPath}
    (h : ∀ left, SameUnless allowed (compileAt limits left ⟨path.root, path.steps ++ steps⟩ sub)
      (compileAt limits left ⟨path.root, path.steps ++ steps⟩ (f sub))) :
    SameUnless allowed (compileAt limits levels path schema)
      (compileAt limits levels path (schema.modify f steps)) := by
  induction hsub generalizing levels path with
  | self schema =>
    have hself := h levels
    rw [List.append_nil] at hself
    exact hself
  | @items fields members steps sub hitems below ih =>
    cases levels with
    | zero => exact .refl _
    | succ levels =>
      have hbelow : SameUnless allowed (compileAt limits levels (path.key .items) (.obj members))
          (compileAt limits levels (path.key .items) ((Value.obj members).modify f steps)) :=
        ih fun left => by rw [SchemaPath.key, List.append_assoc]; exact h left
      obtain ⟨others, hothers⟩ := modify_obj hf steps members
      rw [hothers] at hbelow
      refine compileAt_modify_keyword hitems ?_ ?_
      · rw [hothers]; rfl
      · rw [hothers]; exact (hbelow.bind fun _ => .refl _).map some
  | @place fields schemas i s steps sub hitems hs below ih =>
    cases levels with
    | zero => exact .refl _
    | succ levels =>
      have hbelow : SameUnless allowed
          (compileAt limits levels ((path.key .items).index (0 + i)) s)
          (compileAt limits levels ((path.key .items).index (0 + i)) (s.modify f steps)) := by
        rw [Nat.zero_add]
        refine ih fun left => ?_
        rw [SchemaPath.index, SchemaPath.key, List.append_assoc, List.append_assoc]
        exact h left
      refine compileAt_modify_keyword hitems ?_ ?_
      · exact congrArg some (List.length_modify _ _ _)
      · exact ((compileEach_modify hs hbelow).bind fun _ => .refl _).map some
  | @additionalItems fields members schemas steps sub hitems hadditional below ih =>
    cases levels with
    | zero => exact .refl _
    | succ levels =>
      have hbelow : SameUnless allowed
          (compileAt limits levels (path.key .additionalItems) (.obj members))
          (compileAt limits levels (path.key .additionalItems)
            ((Value.obj members).modify f steps)) :=
        ih fun left => by rw [SchemaPath.key, List.append_assoc]; exact h left
      obtain ⟨others, hothers⟩ := modify_obj hf steps members
      rw [hothers] at hbelow
      refine compileAt_modify_keyword hadditional ?_ ?_
      · rw [hothers]; rfl
      · simp only [valueRule, additionalItemsRule?, hothers, hitems]
        exact hbelow.bind fun _ => .refl _
  | @contains fields members steps sub hcontains below ih =>
    cases levels with
    | zero => exact .refl _
    | succ levels =>
      have hbelow : SameUnless allowed (compileAt limits levels (path.key .contains) (.obj members))
          (compileAt limits levels (path.key .contains) ((Value.obj members).modify f steps)) :=
        ih fun left => by rw [SchemaPath.key, List.append_assoc]; exact h left
      obtain ⟨others, hothers⟩ := modify_obj hf steps members
      rw [hothers] at hbelow
      refine compileAt_modify_keyword hcontains ?_ ?_
      · rw [hothers]; rfl
      · rw [hothers]; exact (hbelow.bind fun _ => .refl _).map some

/-- The error of additional items in the schema at a path that are not an object. -/
def Misshapen (path : SchemaPath) (given : Value) (e : SchemaError) : Prop :=
  given.kind ≠ .object ∧ e = ⟨path.key .additionalItems, .additionalItemsShape⟩

section AdditionalItems

variable {given : Value}
  (hitems : ∀ schemas, Fields.get? Keyword.items.name fields ≠ some (.arr schemas))
  (hgiven : Fields.get? Keyword.additionalItems.name fields = some given)
include hitems hgiven

/-- What is wrong with additional items is wrong with their shape. -/
theorem keywordRule_additionalItems :
    (given.kind = .object ∧
      keywordRule limits compile path fields .additionalItems = .ok none) ∨
    (given.kind ≠ .object ∧ keywordRule limits compile path fields .additionalItems =
      .error ⟨path.key .additionalItems, .additionalItemsShape⟩) := by
  rw [keywordRule_of_some hgiven]
  cases given with
  | obj members =>
    refine .inl ⟨rfl, ?_⟩
    rw [valueRule, additionalItemsRule?]
    exact hitems
  | _ => exact .inr ⟨by rintro ⟨⟩, rfl⟩

theorem keywordRule_erase (k : Keyword) :
    SameUnless (Misshapen path given)
      (keywordRule limits compile path fields k)
      (keywordRule limits compile path (Fields.erase Keyword.additionalItems.name fields) k) := by
  by_cases hk : k = .additionalItems
  · subst hk
    rw [keywordRule_of_none (Fields.get?_erase_self _ fields)]
    obtain ⟨-, h⟩ | ⟨hkind, h⟩ := keywordRule_additionalItems hitems hgiven
    · exact .inl h
    · exact .inr ⟨_, ⟨hkind, rfl⟩, h⟩
  · have hget : ∀ l : Keyword, l ≠ .additionalItems →
        Fields.get? l.name (Fields.erase Keyword.additionalItems.name fields) =
          Fields.get? l.name fields :=
      fun l hl => Fields.get?_erase_of_ne (fun h => hl (Keyword.name_injective h)) fields
    unfold keywordRule
    rw [hget k hk]
    split
    · exact .refl _
    · next v _ =>
      rw [valueRule_places (congrArg places? (hget .items (by decide))) v k]
      exact .refl _

theorem compileAt_erase (limits : Limits) (levels : Nat) :
    SameUnless (Misshapen path given)
      (compileAt limits levels path (.obj fields))
      (compileAt limits levels path ((Value.obj fields).erase Keyword.additionalItems.name)) := by
  cases levels with
  | zero => exact .refl _
  | succ levels =>
    exact (keywordRules_sameUnless (keywordRule_erase hitems hgiven) _).bind fun _ => .refl _

theorem kind_of_compileAt {limits : Limits} {levels : Nat} {rule : Rule}
    (h : compileAt limits levels path (.obj fields) = .ok rule) : given.kind = .object := by
  cases levels with
  | zero => cases h
  | succ levels =>
    obtain ⟨-, heach⟩ := compileAt_parts h
    have hrule := heach .additionalItems (by decide)
    obtain ⟨hkind, -⟩ | ⟨-, herror⟩ := keywordRule_additionalItems hitems hgiven
    · exact hkind
    · rw [herror] at hrule
      cases hrule

end AdditionalItems

end Change

/-- Where `items` lists no schemas, additional items that are an object have no effect: what they
are in compiles as it does without them. If they are anything else, it does not compile: it has
this as its defect, or one that it has without them as well. -/
theorem compile_without_additionalItems (limits : Limits) (root : String) {schema given : Value}
    {steps : List PathStep} {fields : Fields} (hsub : Subschema schema steps (.obj fields))
    (hitems : ∀ schemas, Fields.get? Keyword.items.name fields ≠ some (.arr schemas))
    (hgiven : Fields.get? Keyword.additionalItems.name fields = some given) :
    (given.kind = .object → compile limits root schema =
      compile limits root (without .additionalItems steps schema)) ∧
    (given.kind ≠ .object → ∃ e, compile limits root schema = .error e ∧
      (e = ⟨SchemaPath.key ⟨root, steps⟩ .additionalItems, .additionalItemsShape⟩ ∨
        compile limits root (without .additionalItems steps schema) = .error e)) := by
  have hsame : SameUnless (Misshapen ⟨root, steps⟩ given) (compile limits root schema)
      (compile limits root (without .additionalItems steps schema)) :=
    compileAt_modify hsub (fun members => ⟨_, rfl⟩) fun left =>
      compileAt_erase hitems hgiven limits left
  constructor
  · intro hkind
    obtain heq | ⟨e, ⟨hne, -⟩, -⟩ := hsame
    · exact heq
    · exact absurd hkind hne
  · intro hkind
    cases hcompile : compile limits root schema with
    | ok tree =>
      obtain ⟨left, r, -, -, hr⟩ := compileAt_subschema hcompile hsub
      exact absurd (kind_of_compileAt hitems hgiven hr) hkind
    | error e =>
      rw [hcompile] at hsame
      obtain heq | ⟨d, ⟨-, hd⟩, hed⟩ := hsame
      · exact ⟨e, rfl, .inr heq.symm⟩
      · cases hed
        exact ⟨e, rfl, .inl hd⟩

/-- An array of arrays, in which neither can have additional items. -/
def unusedItems : Value := .obj [
  ("additionalItems", .obj [("type", .str "text")]),
  ("items", .obj [("additionalItems", .bool false)])]

theorem compile_unusedItems :
    compile .default "root" unusedItems =
      compile .default "root" (without .additionalItems [] unusedItems) ∧
    ∃ e, compile .default "root" unusedItems = .error e ∧
      (e = ⟨SchemaPath.key ⟨"root", [.keyword .items]⟩ .additionalItems, .additionalItemsShape⟩ ∨
        compile .default "root" (without .additionalItems [.keyword .items] unusedItems) =
          .error e) :=
  ⟨(compile_without_additionalItems .default "root" (.self _) (by rintro _ ⟨⟩) rfl).1 rfl,
    (compile_without_additionalItems .default "root" (.items rfl (.self _)) (by rintro _ ⟨⟩) rfl).2
      (by rintro ⟨⟩)⟩

/-- What is not an object has an effect. -/
theorem not_compile_without : ¬∀ (limits : Limits) (root : String) (schema given : Value)
    (steps : List PathStep) (fields : Fields), Subschema schema steps (.obj fields) →
    (Fields.get? Keyword.items.name fields = none ∨
      ∃ members, Fields.get? Keyword.items.name fields = some (.obj members)) →
    Fields.get? Keyword.additionalItems.name fields = some given →
    compile limits root schema = compile limits root (without .additionalItems steps schema) := by
  intro h
  have hsame := h .default "root" (.obj [("additionalItems", .bool true)]) _ [] _ (.self _)
    (.inl rfl) rfl
  have hdefect : compile .default "root" (.obj [("additionalItems", .bool true)]) =
      .error ⟨⟨"root", [.keyword .additionalItems]⟩, .additionalItemsShape⟩ := rfl
  have hnone : compile .default "root"
      (without .additionalItems [] (.obj [("additionalItems", .bool true)])) =
        .ok (.allOf (.ofRoot "root") []) := rfl
  rw [hdefect, hnone] at hsame
  cases hsame

end Schema

end JsonRules
