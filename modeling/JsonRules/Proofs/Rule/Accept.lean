import JsonRules.Proofs.Rule.Descend
import JsonRules.Proofs.Rule.Search
import JsonRules.Rule.Accept
import JsonRules.Rule.Map

/-!
# Acceptance is evaluation without error

A value is accepted at every location or at none. Acceptance is monotone: every rule asks for the
acceptance of the rules below it and never for a rejection, so a tree whose checks hold of more
values accepts more values.
-/

namespace JsonRules.Rule

section Inversion

variable {holds : Check → Value → Prop} {path : SchemaPath} {r : Rule} {rules : List Rule}
  {v : Value}

@[simp] theorem accepts_check {c : Check} : (check path c).Accepts holds v ↔ holds c v :=
  ⟨fun h => by cases h; assumption, .check⟩

@[simp] theorem accepts_allOf :
    (allOf path rules).Accepts holds v ↔ ∀ r ∈ rules, r.Accepts holds v :=
  ⟨fun h => by cases h; assumption, .allOf⟩

@[simp] theorem accepts_anyOf :
    (anyOf path rules).Accepts holds v ↔ ∃ r ∈ rules, r.Accepts holds v :=
  ⟨fun h => by cases h with | anyOf mem h => exact ⟨_, mem, h⟩, fun ⟨_, mem, h⟩ => .anyOf mem h⟩

@[simp] theorem accepts_itemsUniform :
    (itemsUniform path r).Accepts holds v ↔ ∀ x ∈ v.items, r.Accepts holds x :=
  ⟨fun h => by cases h; assumption, .itemsUniform⟩

@[simp] theorem accepts_itemsPositional :
    (itemsPositional path rules).Accepts holds v ↔ ∀ (i : Nat) (r : Rule) (x : Value),
      rules[i]? = some r → v.items[i]? = some x → r.Accepts holds x :=
  ⟨fun h => by cases h; assumption, .itemsPositional⟩

@[simp] theorem accepts_additionalItems {offset : Nat} :
    (additionalItems path offset r).Accepts holds v ↔
      ∀ x ∈ v.items.drop offset, r.Accepts holds x :=
  ⟨fun h => by cases h; assumption, .additionalItems⟩

@[simp] theorem accepts_contains :
    (contains path r).Accepts holds v ↔ ∀ items, v = .arr items → ∃ x ∈ items, r.Accepts holds x := by
  constructor
  · intro h items hv
    cases h with
    | contains mem h => cases hv; exact ⟨_, mem, h⟩
    | notArray h => exact absurd hv (h items)
  · intro h
    cases v with
    | arr items =>
      obtain ⟨x, mem, hx⟩ := h items rfl
      exact .contains mem hx
    | _ => exact .notArray nofun

theorem accepts_all : (all path rules).Accepts holds v ↔ ∀ r ∈ rules, r.Accepts holds v := by
  unfold all
  split
  · rw [List.forall_mem_singleton]
  · exact accepts_allOf

end Inversion

/-- A tree that holds in more places accepts more, wherever its rules lie. -/
theorem Accepts.map {holds holds' : Check → Value → Prop} {f : SchemaPath → SchemaPath}
    {g : Check → Check} (hcheck : ∀ c v, holds c v → holds' (g c) v) {r : Rule} {v : Value}
    (h : r.Accepts holds v) : (r.map f g).Accepts holds' v := by
  induction h with
  | check h => exact .check (hcheck _ _ h)
  | allOf _ ih =>
    rw [Rule.map, mapAll_eq]
    refine .allOf fun r' hr' => ?_
    obtain ⟨r, hr, rfl⟩ := List.mem_map.1 hr'
    exact ih r hr
  | anyOf mem _ ih =>
    rw [Rule.map, mapAll_eq]
    exact .anyOf (List.mem_map_of_mem mem) ih
  | itemsUniform _ ih => exact .itemsUniform ih
  | itemsPositional _ ih =>
    rw [Rule.map, mapAll_eq]
    refine .itemsPositional fun i r' x hr' hx => ?_
    rw [List.getElem?_map] at hr'
    obtain ⟨r, hr, rfl⟩ := Option.map_eq_some_iff.1 hr'
    exact ih i r x hr hx
  | additionalItems _ ih => exact .additionalItems ih
  | contains mem _ ih => exact .contains mem ih
  | notArray h => exact .notArray h

section Items

variable {error? : Value → Location → Option ValidationError} {P : Value → Prop}

theorem firstItemError?_eq_none_iff (h : ∀ x l, error? x l = none ↔ P x) (l : Location)
    (start : Nat) (items : List Value) :
    firstItemError? error? l start items = none ↔ ∀ x ∈ items, P x := by
  induction items generalizing start with
  | nil => exact ⟨fun _ => List.forall_mem_nil _, fun _ => rfl⟩
  | cons x rest ih => rw [firstItemError?, Option.or_eq_none_iff, h, ih, List.forall_mem_cons]

theorem someItemPasses_iff (h : ∀ x l, error? x l = none ↔ P x) (l : Location) (start : Nat)
    (items : List Value) : someItemPasses error? l start items = true ↔ ∃ x ∈ items, P x := by
  induction items generalizing start with
  | nil => exact ⟨nofun, nofun⟩
  | cons x rest ih =>
    rw [someItemPasses, Bool.or_eq_true, Option.isNone_iff_eq_none, h, ih]
    simp

theorem firstPlaceError?_eq_none_iff {Q : Rule → Value → Prop} {rules : List Rule}
    (h : ∀ r ∈ rules, ∀ x l, r.error? x l = none ↔ Q r x) (l : Location) (start : Nat)
    (items : List Value) : firstPlaceError? rules start items l = none ↔
      ∀ (i : Nat) (r : Rule) (x : Value), rules[i]? = some r → items[i]? = some x → Q r x := by
  rw [firstPlaceError?_eq, List.findSome?_eq_none_iff]
  constructor
  · intro hnone i r x hr hx
    have hmem : ((r, x), start + i) ∈ (rules.zip items).zipIdx start := by
      rw [List.mk_mem_zipIdx_iff_le_and_getElem?_sub, Nat.add_sub_cancel_left]
      exact ⟨Nat.le_add_right _ _, List.getElem?_zip_eq_some.2 ⟨hr, hx⟩⟩
    exact (h r (List.mem_of_getElem? hr) x _).1 (hnone _ hmem)
  · rintro heach ⟨⟨r, x⟩, i⟩ hmem
    obtain ⟨-, hzip⟩ := List.mk_mem_zipIdx_iff_le_and_getElem?_sub.1 hmem
    obtain ⟨hr, hx⟩ := List.getElem?_zip_eq_some.1 hzip
    exact (h r (List.mem_of_getElem? hr) x _).2 (heach _ r x hr hx)

end Items

/-- A value has no error under a rule exactly if the rule accepts it. -/
theorem error?_eq_none_iff (rule : Rule) : ∀ (v : Value) (l : Location),
    rule.error? v l = none ↔ rule.Accepts Check.Holds v := by
  induction rule using byChildren with
  | step rule ih =>
    intro v l
    cases rule with
    | check path c => rw [error?, Option.map_eq_none_iff, accepts_check, Check.Holds]
    | allOf path rules =>
      rw [error?, firstError?_eq, List.findSome?_eq_none_iff, accepts_allOf]
      exact forall₂_congr fun r hr => ih r hr v l
    | anyOf path rules =>
      have hsome : somePasses rules v l = true ↔ ∃ r ∈ rules, r.Accepts Check.Holds v := by
        rw [somePasses_eq, List.any_eq_true]
        refine exists_congr fun r => and_congr_right fun hr => ?_
        rw [Option.isNone_iff_eq_none]
        exact ih r hr v l
      rw [error?, accepts_anyOf, ← hsome]
      simp
    | itemsUniform path rule =>
      rw [error?, accepts_itemsUniform]
      exact firstItemError?_eq_none_iff (ih rule List.mem_cons_self) l 0 v.items
    | itemsPositional path rules =>
      rw [error?, accepts_itemsPositional]
      exact firstPlaceError?_eq_none_iff ih l 0 v.items
    | additionalItems path offset rule =>
      rw [error?, accepts_additionalItems]
      exact firstItemError?_eq_none_iff (ih rule List.mem_cons_self) l offset _
    | contains path rule =>
      cases v with
      | arr items =>
        have hsome := someItemPasses_iff (ih rule List.mem_cons_self) l 0 items
        rw [error?, accepts_contains]
        simp [hsome]
      | _ => simp [error?]

theorem evaluate_eq_ok_iff {rule : Rule} {v : Value} {l : Location} :
    rule.evaluate v l = .ok () ↔ rule.Accepts Check.Holds v := by
  rw [← error?_eq_none_iff rule v l, evaluate]
  cases rule.error? v l <;> simp

end JsonRules.Rule
