import JsonRules.Proofs.Rule.Descend
import JsonRules.Proofs.Rule.Search
import JsonRules.Rule.Relocation
import JsonRules.Rule.Trace

/-!
# Evaluation commutes with relocation

What a rule finds in a value does not depend on where the value lies, but for the location of the
error. So the error of an item, however deep the arrays lie in one another, is the item's own error
with the indices of the arrays in front, the outermost first.
-/

namespace JsonRules

namespace ValidationError

theorem under_under (outer inner : Location) (e : ValidationError) :
    (e.under inner).under outer = e.under (outer.append inner) := by
  simp [under, Location.append]

theorem under_push (l : Location) (i : Nat) (e : ValidationError) :
    (e.under (Location.root.push i)).under l = e.under (l.push i) := by
  rw [under_under, Location.append_push, Location.append_root]

end ValidationError

/-- The items from a place on are those whose places are not before it. -/
theorem findSome?_drop {α β : Type} (f : α × Nat → Option β) (n : Nat) (items : List α) :
    ∀ start, ((items.zipIdx start).drop n).findSome? f =
      (items.zipIdx start).findSome? fun m => if start + n ≤ m.2 then f m else none := by
  induction items generalizing n with
  | nil => intro start; simp
  | cons x rest ih =>
    intro start
    rw [List.zipIdx_cons]
    cases n with
    | zero =>
      refine findSome?_congr fun m hm => (if_pos ?_).symm
      rw [← List.zipIdx_cons] at hm
      exact List.le_snd_of_mem_zipIdx hm
    | succ n =>
      have hbefore : ¬ start + (n + 1) ≤ start := by omega
      rw [List.drop_succ_cons, ih, findSome?_cons_or, if_neg hbefore, Option.none_or,
        Nat.add_assoc, Nat.add_comm 1 n]

namespace Rule

theorem evaluate_eq_ok {rule : Rule} {v : Value} {l : Location} :
    rule.evaluate v l = .ok () ↔ rule.error? v l = none := by
  rw [evaluate]
  cases rule.error? v l <;> simp

theorem evaluate_eq_error {rule : Rule} {v : Value} {l : Location} {e : ValidationError} :
    rule.evaluate v l = .error e ↔ rule.error? v l = some e := by
  rw [evaluate]
  cases rule.error? v l <;> simp

theorem firstPlaceError?_drop (rules : List Rule) (l : Location) (items : List Value) :
    ∀ k, firstPlaceError? (rules.drop k) k items l =
      (items.zipIdx k).findSome? fun (x, i) => rules[i]?.bind fun r => r.error? x (l.push i) := by
  induction items with
  | nil =>
    intro k
    cases rules.drop k <;> rfl
  | cons x rest ih =>
    intro k
    rw [List.zipIdx_cons, findSome?_cons_or, ← ih]
    dsimp only
    by_cases hk : k < rules.length
    · rw [List.drop_eq_getElem_cons hk, firstPlaceError?, List.getElem?_eq_getElem hk,
        Option.bind_some]
    · have hend : ∀ n, k ≤ n → rules.drop n = [] := fun n hn => List.drop_eq_nil_of_le (by omega)
      rw [hend k (Nat.le_refl k), hend (k + 1) (Nat.le_succ k),
        List.getElem?_eq_none (Nat.le_of_not_lt hk)]
      rfl

/-- A rule for items searches for the first item that the rule of its place rejects. -/
theorem error?_of_entersItems {whole : Rule} (h : whole.entersItems = true) (v : Value)
    (l : Location) : whole.error? v l = v.items.zipIdx.findSome? fun (x, i) =>
      (whole.itemRule? i).bind fun r => r.error? x (l.push i) := by
  cases whole with
  | itemsUniform path rule => rw [error?, firstItemError?_eq]; rfl
  | itemsPositional path rules =>
    have hplaces := firstPlaceError?_drop rules l v.items 0
    rw [List.drop_zero] at hplaces
    rw [error?, hplaces]
    rfl
  | additionalItems path offset rule =>
    have hdrop := zipIdx_drop v.items 0 offset
    rw [Nat.zero_add] at hdrop
    rw [error?, firstItemError?_eq, hdrop, findSome?_drop]
    refine findSome?_congr ?_
    rintro ⟨x, i⟩ -
    simp only [itemRule?, Nat.zero_add]
    split <;> rfl
  | _ => cases h

theorem entersItems_of_itemRule? {whole rule : Rule} {i : Nat} (h : whole.itemRule? i = some rule) :
    whole.entersItems = true := by
  cases whole with
  | itemsUniform | itemsPositional | additionalItems => rfl
  | _ => cases h

theorem mem_children_of_itemRule? {whole rule : Rule} {i : Nat}
    (h : whole.itemRule? i = some rule) : rule ∈ whole.children := by
  cases whole with
  | itemsUniform path r => cases h; exact List.mem_cons_self
  | itemsPositional path rules => exact List.mem_of_getElem? h
  | additionalItems path offset r =>
    rw [itemRule?, Option.ite_none_right_eq_some] at h
    rw [← Option.some.inj h.2]
    exact List.mem_cons_self
  | _ => cases h

section Passing

variable {rules : List Rule} {l : Location}

/-- Rules whose errors are only relocated accept the value at one location as at another. -/
theorem somePasses_of_under (v : Value)
    (h : ∀ r ∈ rules, r.error? v l = (r.error? v .root).map (·.under l)) :
    somePasses rules v l = somePasses rules v .root := by
  rw [somePasses_eq, somePasses_eq]
  refine any_congr_mem fun r hr => ?_
  rw [h r hr, Option.isNone_map]

theorem someItemPasses_of_under {rule : Rule}
    (h : ∀ x l, rule.error? x l = (rule.error? x .root).map (·.under l)) (items : List Value) :
    someItemPasses rule.error? l 0 items = someItemPasses rule.error? .root 0 items := by
  rw [someItemPasses_eq, someItemPasses_eq]
  refine any_congr_mem ?_
  rintro ⟨x, i⟩ -
  simp only
  rw [h x (l.push i), h x (Location.root.push i), Option.isNone_map, Option.isNone_map]

end Passing

/-- The error at a location is the error of the value by itself, with the location in front. -/
theorem error?_eq_under (rule : Rule) : ∀ (v : Value) (l : Location),
    rule.error? v l = (rule.error? v .root).map (·.under l) := by
  induction rule using byChildren with
  | step rule ih =>
    intro v l
    have hitems : rule.entersItems = true →
        rule.error? v l = (rule.error? v .root).map (·.under l) := by
      intro henters
      rw [error?_of_entersItems henters, error?_of_entersItems henters, List.map_findSome?]
      refine findSome?_congr ?_
      rintro ⟨x, i⟩ -
      simp only [Function.comp_apply]
      cases hrule : rule.itemRule? i with
      | none => rfl
      | some r =>
        have hr := ih r (mem_children_of_itemRule? hrule)
        rw [Option.bind_some, Option.bind_some, hr x (l.push i), hr x (Location.root.push i),
          Option.map_map]
        exact congrArg (Option.map · _) (funext fun e => (e.under_push l i).symm)
    cases rule with
    | check path c =>
      rw [error?, error?, Option.map_map]
      exact congrArg (Option.map · _) (funext fun violation => by
        simp [ValidationError.under])
    | allOf path rules =>
      rw [error?, error?, firstError?_eq, firstError?_eq, List.map_findSome?]
      exact findSome?_congr fun r hr => ih r hr v l
    | anyOf path rules =>
      have hpasses : somePasses rules v l = somePasses rules v .root :=
        somePasses_of_under v fun r hr => ih r hr v l
      rw [error?, error?, hpasses]
      split
      · rfl
      · simp [ValidationError.under]
    | itemsUniform | itemsPositional | additionalItems => exact hitems rfl
    | contains path rule =>
      cases v with
      | arr items =>
        rw [error?, error?, someItemPasses_of_under (ih rule List.mem_cons_self)]
        split
        · rfl
        · simp [ValidationError.under]
      | _ => rfl

theorem error?_eq_none_of_root {rule : Rule} {v : Value} (h : rule.evaluate v .root = .ok ())
    (l : Location) : rule.error? v l = none := by
  rw [error?_eq_under, evaluate_eq_ok.1 h]
  rfl

/-- Where evaluation comes to a part of a value that is rejected, it ends with the error there. -/
theorem ComesTo.error? {rule node : Rule} {v w : Value} {places : List Nat} {e : ValidationError}
    (h : rule.ComesTo v places node w) (he : node.error? w .root = some e) :
    ∀ l, rule.error? v l = some (e.under (l.append ⟨places⟩)) := by
  induction h with
  | self rule v =>
    intro l
    rw [error?_eq_under, he]
    exact congrArg (fun m => some (e.under m)) l.append_root.symm
  | @joined path before after rule node v w places passed _ ih =>
    intro l
    have hbefore : before.findSome? (fun r => r.error? v l) = none :=
      List.findSome?_eq_none_iff.2 fun r hr => error?_eq_none_of_root (passed r hr) l
    rw [Rule.error?, firstError?_eq, List.findSome?_append, hbefore, Option.none_or,
      findSome?_cons_or, ih he l, Option.some_or]
  | @item whole rule node items i x w places applied item passed _ ih =>
    intro l
    rw [error?_of_entersItems (entersItems_of_itemRule? applied), Value.items,
      findSome?_zipIdx_eq_some]
    refine ⟨i, x, item, ?_, fun j y hj hy => ?_⟩
    · have hplaces : (l.push i).append ⟨places⟩ = l.append ⟨i :: places⟩ := by
        simp [Location.append, Location.push]
      simp only [applied, Option.bind_some]
      rw [ih he, hplaces]
    · simp only
      cases hrule : whole.itemRule? j with
      | none => rfl
      | some r => exact error?_eq_none_of_root (passed j r y hj hrule hy) _

/-- An error of its own names the rule and the place where it looks. -/
theorem error?_of_reports {rule : Rule} (h : rule.reports = true) {v : Value} {l : Location}
    {e : ValidationError} (he : rule.error? v l = some e) :
    rule.path = e.path ∧ rule.keyword = e.keyword ∧ e.location = l := by
  cases rule with
  | check path c =>
    rw [error?] at he
    obtain ⟨violation, -, rfl⟩ := Option.map_eq_some_iff.1 he
    exact ⟨rfl, rfl, rfl⟩
  | anyOf path rules =>
    rw [error?] at he
    split at he
    · cases he
    · cases he; exact ⟨rfl, rfl, rfl⟩
  | contains path rule =>
    cases v with
    | arr items =>
      rw [error?] at he
      split at he
      · cases he
      · cases he; exact ⟨rfl, rfl, rfl⟩
    | _ => cases he
  | _ => cases h

/-- Every error of a value is the own error of a rule that evaluation comes to. -/
theorem exists_comesTo (rule : Rule) : ∀ {v : Value} {e : ValidationError},
    rule.error? v .root = some e → ∃ places node w own, rule.ComesTo v places node w ∧
      node.reports = true ∧ node.error? w .root = some own ∧ e = own.under ⟨places⟩ := by
  induction rule using byChildren with
  | step rule ih =>
    intro v e he
    have hself : rule.reports = true → ∃ places node w own, rule.ComesTo v places node w ∧
        node.reports = true ∧ node.error? w .root = some own ∧ e = own.under ⟨places⟩ :=
      fun hreports => ⟨[], rule, v, e, .self rule v, hreports, he, by
        simp [ValidationError.under, Location.append]⟩
    have hitems : rule.entersItems = true → ∃ places node w own, rule.ComesTo v places node w ∧
        node.reports = true ∧ node.error? w .root = some own ∧ e = own.under ⟨places⟩ := by
      intro henters
      rw [error?_of_entersItems henters] at he
      cases v with
      | arr items =>
        obtain ⟨i, x, hx, hrule, hbefore⟩ := findSome?_zipIdx_eq_some.1 he
        obtain ⟨r, happlied, hr⟩ := Option.bind_eq_some_iff.1 hrule
        rw [error?_eq_under] at hr
        obtain ⟨inner, hinner, rfl⟩ := Option.map_eq_some_iff.1 hr
        obtain ⟨places, node, w, own, hcomes, hreports, hown, rfl⟩ :=
          ih r (mem_children_of_itemRule? happlied) hinner
        refine ⟨i :: places, node, w, own, .item happlied hx (fun j s y hj hs hy => ?_) hcomes,
          hreports, hown, ?_⟩
        · have hnone := hbefore j y hj hy
          simp only [hs, Option.bind_some] at hnone
          rw [error?_eq_under, Option.map_eq_none_iff] at hnone
          exact evaluate_eq_ok.2 hnone
        · rw [ValidationError.under_under]
          rfl
      | _ => cases he
    cases rule with
    | check | anyOf | contains => exact hself rfl
    | itemsUniform | itemsPositional | additionalItems => exact hitems rfl
    | allOf path rules =>
      rw [error?, firstError?_eq] at he
      obtain ⟨before, r, after, rfl, hr, hbefore⟩ := List.findSome?_eq_some_iff.1 he
      have hmem : r ∈ (allOf path (before ++ r :: after)).children := by simp [children]
      obtain ⟨places, node, w, own, hcomes, hown⟩ := ih r hmem hr
      exact ⟨places, node, w, own, .joined (fun s hs => evaluate_eq_ok.2 (hbefore s hs)) hcomes,
        hown⟩

/-- A value is accepted at a location exactly if it is accepted by itself, and else its error there
is its own error with the location in front. If evaluation comes to a part of the value that is
rejected, the error of the whole value is that of the part, with the places of the part in front;
and every error comes in this way from a part and a rule that has it as an error of its own. -/
theorem evaluate_relocated (rule : Rule) (v : Value) (l : Location) :
    rule.evaluate v l = (rule.evaluate v .root).mapError (·.under l) ∧
      (∀ places node w e, rule.ComesTo v places node w → node.evaluate w .root = .error e →
        rule.evaluate v l = .error (e.under (l.append ⟨places⟩))) ∧
      ∀ e, rule.evaluate v l = .error e → ∃ places node w own, rule.ComesTo v places node w ∧
        node.reports = true ∧ node.evaluate w .root = .error own ∧ own.location = .root ∧
        e = own.under (l.append ⟨places⟩) := by
  refine ⟨?_, fun places node w e hcomes he => ?_, fun e he => ?_⟩
  · rw [evaluate, evaluate, error?_eq_under]
    cases rule.error? v .root <;> rfl
  · exact evaluate_eq_error.2 (hcomes.error? (evaluate_eq_error.1 he) l)
  · rw [evaluate_eq_error, error?_eq_under] at he
    obtain ⟨inner, hinner, rfl⟩ := Option.map_eq_some_iff.1 he
    obtain ⟨places, node, w, own, hcomes, hreports, hown, rfl⟩ := rule.exists_comesTo hinner
    obtain ⟨-, -, hlocation⟩ := error?_of_reports hreports hown
    exact ⟨places, node, w, own, hcomes, hreports, evaluate_eq_error.2 hown, hlocation,
      ValidationError.under_under _ _ _⟩

/-- In the second place stands a list of lists, each with texts after its first item. -/
def textsInSecond : Rule :=
  .itemsPositional (.ofRoot "") [
    .allOf (.ofRoot "") [],
    .itemsUniform (.ofRoot "")
      (.additionalItems (.ofRoot "") 1 (.check (.ofRoot "") (.type .string)))]

/-- The second list in the second place has no text. -/
theorem evaluate_relocated_nested :
    textsInSecond.ComesTo
        (.arr [.null, .arr [.arr [.null, .str "a"], .arr [.null, .str "b", .null]]])
        [1, 1, 2] (.check (.ofRoot "") (.type .string)) .null ∧
      textsInSecond.evaluate
        (.arr [.null, .arr [.arr [.null, .str "a"], .arr [.null, .str "b", .null]]]) ⟨[7]⟩ =
          .error ⟨.ofRoot "", .type, ⟨[7, 1, 1, 2]⟩, .wrongKind .string⟩ := by
  have hcomes : textsInSecond.ComesTo
      (.arr [.null, .arr [.arr [.null, .str "a"], .arr [.null, .str "b", .null]]])
      [1, 1, 2] (.check (.ofRoot "") (.type .string)) .null := by
    refine .item rfl rfl ?_ (.item rfl rfl ?_ (.item rfl rfl ?_ (.self _ _)))
    · rintro (_ | j) r y hj hr hy
      · cases hr; cases hy; rfl
      · omega
    · rintro (_ | j) r y hj hr hy
      · cases hr; cases hy; rfl
      · omega
    · rintro (_ | _ | j) r y hj hr hy
      · cases hr
      · cases hr; cases hy; rfl
      · omega
  exact ⟨hcomes, (evaluate_relocated textsInSecond _ ⟨[7]⟩).2.1 _ _ _ _ hcomes rfl⟩

end Rule

end JsonRules
