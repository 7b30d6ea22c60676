import JsonRules.Proofs.Rule.Search
import JsonRules.Proofs.Value.Structure
import JsonRules.Rule.Alike

/-!
# Rules made of alike rules

Whatever combines rules or applies them to items is alike if the rules are: the searches that
`Rule.error?` consists of go through lists whose members are related one by one.
-/

namespace JsonRules

section Search

variable {α β γ δ : Type} {R : α → β → Prop} {S : γ → δ → Prop}

theorem rel_or {x y : Option α} {x' y' : Option β} (hx : Option.Rel R x x')
    (hy : Option.Rel R y y') : Option.Rel R (x.or y) (x'.or y') := by
  cases hx with
  | some h => exact .some h
  | none => exact hy

theorem isNone_eq_of_rel {x : Option α} {y : Option β} (h : Option.Rel R x y) :
    x.isNone = y.isNone := by
  cases h <;> rfl

theorem findSome?_rel {f : α → Option γ} {g : β → Option δ} {l : List α} {m : List β}
    (h : List.Forall₂ (fun a b => Option.Rel S (f a) (g b)) l m) :
    Option.Rel S (l.findSome? f) (m.findSome? g) := by
  induction h with
  | nil => exact .none
  | cons hab _ ih => rw [findSome?_cons_or, findSome?_cons_or]; exact rel_or hab ih

theorem any_eq_of_forall₂ {p : α → Bool} {q : β → Bool} {l : List α} {m : List β}
    (h : List.Forall₂ (fun a b => p a = q b) l m) : l.any p = m.any q := by
  induction h with
  | nil => rfl
  | cons hab _ ih => rw [List.any_cons, List.any_cons, hab, ih]

end Search

theorem Violation.Alike.rel_refl {x : Option Violation} : Option.Rel Violation.Alike x x := by
  cases x with
  | none => exact .none
  | some violation => exact .some (.refl violation)

theorem ValidationError.Alike.refl (e : ValidationError) : e.Alike e :=
  ⟨rfl, rfl, rfl, .refl _⟩

theorem Value.ordered_items {v : Value} (h : v.Ordered) : ∀ x ∈ v.items, x.Ordered := by
  cases v with
  | arr items => exact ordered_arr.1 h
  | _ => exact List.forall_mem_nil _

namespace Rule

theorem alike_iff {r s : Rule} :
    r.Alike s ↔ ∀ v, v.Ordered → ∀ l,
      Option.Rel ValidationError.Alike (r.error? v l) (s.error? v l) := by
  have outcome : ∀ v l, SameOutcome ValidationError.Alike Eq (r.evaluate v l) (s.evaluate v l) ↔
      Option.Rel ValidationError.Alike (r.error? v l) (s.error? v l) := by
    intro v l
    rw [evaluate, evaluate]
    generalize r.error? v l = x, s.error? v l = y
    constructor
    · intro h
      cases x <;> cases y <;> cases h
      · exact .none
      · next he => exact .some he
    · intro h
      cases h with
      | none => exact .ok rfl
      | some he => exact .error he
  exact ⟨fun h v hv l => (outcome v l).1 (h ⟨v, hv⟩ l),
    fun h v l => (outcome v.1 l).2 (h v.1 v.2 l)⟩

theorem Alike.refl (r : Rule) : r.Alike r := by
  refine alike_iff.2 fun v _ l => ?_
  cases r.error? v l with
  | none => exact .none
  | some e => exact .some (.refl e)

/-- Checks of one keyword whose violations are alike. -/
theorem alike_check {path : SchemaPath} {c d : Check} (hk : c.keyword = d.keyword)
    (h : ∀ v, v.Ordered → Option.Rel Violation.Alike (c.violation? v) (d.violation? v)) :
    (check path c).Alike (check path d) := by
  refine alike_iff.2 fun v hv l => ?_
  have hviolation := h v hv
  rw [error?, error?]
  generalize c.violation? v = x, d.violation? v = y at hviolation ⊢
  cases hviolation with
  | none => exact .none
  | some hw => exact .some ⟨rfl, hk, rfl, hw⟩

section Items

variable {r s : Rule}

theorem firstItemError?_rel (h : r.Alike s) (l : Location) (start : Nat) {items : List Value}
    (ho : ∀ x ∈ items, x.Ordered) :
    Option.Rel ValidationError.Alike (firstItemError? r.error? l start items)
      (firstItemError? s.error? l start items) := by
  rw [firstItemError?_eq, firstItemError?_eq]
  refine findSome?_rel (List.forall₂_same.2 fun m hm => ?_)
  exact alike_iff.1 h m.1 (ho m.1 (List.fst_mem_of_mem_zipIdx hm)) (l.push m.2)

theorem someItemPasses_eq_of_alike (h : r.Alike s) (l : Location) (start : Nat)
    {items : List Value} (ho : ∀ x ∈ items, x.Ordered) :
    someItemPasses r.error? l start items = someItemPasses s.error? l start items := by
  rw [someItemPasses_eq, someItemPasses_eq]
  refine any_congr_mem fun m hm => ?_
  exact isNone_eq_of_rel (alike_iff.1 h m.1 (ho m.1 (List.fst_mem_of_mem_zipIdx hm)) (l.push m.2))

theorem firstPlaceError?_rel {rs ss : List Rule} (h : List.Forall₂ Alike rs ss) (l : Location)
    (start : Nat) {items : List Value} (ho : ∀ x ∈ items, x.Ordered) :
    Option.Rel ValidationError.Alike (firstPlaceError? rs start items l)
      (firstPlaceError? ss start items l) := by
  induction h generalizing start items with
  | nil => exact .none
  | cons hrs _ ih =>
    cases items with
    | nil => exact .none
    | cons x items =>
      obtain ⟨hx, hitems⟩ := List.forall_mem_cons.1 ho
      rw [firstPlaceError?, firstPlaceError?]
      exact rel_or (alike_iff.1 hrs x hx (l.push start)) (ih (start + 1) hitems)

end Items

section Combined

variable {path : SchemaPath} {r s : Rule} {rs ss : List Rule}

theorem alike_all (h : List.Forall₂ Alike rs ss) : (all path rs).Alike (all path ss) := by
  refine alike_iff.2 fun v hv l => ?_
  rw [error?_all, error?_all]
  exact findSome?_rel (h.imp fun _ _ hrs => alike_iff.1 hrs v hv l)

theorem alike_itemsUniform (h : r.Alike s) : (itemsUniform path r).Alike (itemsUniform path s) := by
  refine alike_iff.2 fun v hv l => ?_
  rw [error?, error?]
  exact firstItemError?_rel h l 0 (Value.ordered_items hv)

theorem alike_itemsPositional (h : List.Forall₂ Alike rs ss) :
    (itemsPositional path rs).Alike (itemsPositional path ss) := by
  refine alike_iff.2 fun v hv l => ?_
  rw [error?, error?]
  exact firstPlaceError?_rel h l 0 (Value.ordered_items hv)

theorem alike_additionalItems (offset : Nat) (h : r.Alike s) :
    (additionalItems path offset r).Alike (additionalItems path offset s) := by
  refine alike_iff.2 fun v hv l => ?_
  rw [error?, error?]
  exact firstItemError?_rel h l offset fun x hx =>
    Value.ordered_items hv x (List.mem_of_mem_drop hx)

theorem alike_contains (h : r.Alike s) : (contains path r).Alike (contains path s) := by
  refine alike_iff.2 fun v hv l => ?_
  cases v with
  | arr items =>
    rw [error?, error?, someItemPasses_eq_of_alike h l 0 (Value.ordered_arr.1 hv)]
    split
    · exact .none
    · exact .some (.refl _)
  | _ => exact .none

end Combined

end Rule

end JsonRules
