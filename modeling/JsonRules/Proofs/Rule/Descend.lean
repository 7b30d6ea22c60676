import JsonRules.Rule

/-!
# The rules of a tree

`Rule.Everywhere P` says `P` of a rule and of every rule below it.
-/

namespace JsonRules.Rule

theorem sizeOf_lt_of_mem_children {r rule : Rule} (h : r ∈ rule.children) :
    sizeOf r < sizeOf rule := by
  cases rule with
  | check p c => cases h
  | allOf p rules | anyOf p rules | itemsPositional p rules =>
    have hr := List.sizeOf_lt_of_mem (show r ∈ rules from h)
    simp only [allOf.sizeOf_spec, anyOf.sizeOf_spec, itemsPositional.sizeOf_spec]
    omega
  | itemsUniform p rule | contains p rule | additionalItems p offset rule =>
    obtain rfl := List.mem_singleton.1 h
    simp only [itemsUniform.sizeOf_spec, contains.sizeOf_spec, additionalItems.sizeOf_spec]
    omega

/-- Induction over a rule from the rules directly below it. -/
theorem byChildren {P : Rule → Prop} (step : ∀ rule, (∀ r ∈ rule.children, P r) → P rule)
    (rule : Rule) : P rule :=
  step rule fun r _ => byChildren step r
termination_by sizeOf rule
decreasing_by exact sizeOf_lt_of_mem_children ‹_›

def Everywhere (P : Rule → Prop) (rule : Rule) : Prop :=
  ∀ indices r, rule.descendant? indices = some r → P r

section Everywhere

variable {P : Rule → Prop} {rule : Rule}

theorem Everywhere.self (h : rule.Everywhere P) : P rule := h [] rule (by rw [descendant?])

theorem descendant?_cons {i : Nat} {rest : List Nat} {r : Rule} :
    rule.descendant? (i :: rest) = some r ↔
      ∃ child, rule.children[i]? = some child ∧ child.descendant? rest = some r := by
  rw [descendant?, Option.bind_eq_some_iff]

theorem Everywhere.descendant (h : rule.Everywhere P) {indices : List Nat} {r : Rule}
    (hr : rule.descendant? indices = some r) : r.Everywhere P := by
  induction indices generalizing rule with
  | nil => rw [descendant?] at hr; cases hr; exact h
  | cons i rest ih =>
    obtain ⟨child, hchild, hr⟩ := descendant?_cons.1 hr
    exact ih (fun indices s hs => h (i :: indices) s (descendant?_cons.2 ⟨child, hchild, hs⟩)) hr

theorem everywhere_iff : rule.Everywhere P ↔ P rule ∧ ∀ r ∈ rule.children, r.Everywhere P := by
  constructor
  · intro h
    refine ⟨h.self, fun r hr => ?_⟩
    obtain ⟨i, hi⟩ := List.mem_iff_getElem?.1 hr
    have hdesc : rule.descendant? [i] = some r := descendant?_cons.2 ⟨r, hi, by rw [descendant?]⟩
    exact h.descendant hdesc
  · rintro ⟨hself, hbelow⟩ indices r hr
    cases indices with
    | nil => rw [descendant?] at hr; cases hr; exact hself
    | cons i rest =>
      obtain ⟨child, hchild, hr⟩ := descendant?_cons.1 hr
      exact hbelow child (List.mem_of_getElem? hchild) rest r hr

/-- Several rules made one are joined unless there is a single one. -/
theorem Everywhere.all {path : SchemaPath} {rules : List Rule}
    (self : rules.length ≠ 1 → P (allOf path rules)) (h : ∀ r ∈ rules, r.Everywhere P) :
    (all path rules).Everywhere P := by
  unfold Rule.all
  split
  · next r => exact h r List.mem_cons_self
  · next hne =>
    refine everywhere_iff.2 ⟨self fun hlen => ?_, h⟩
    obtain ⟨r, hr⟩ := List.length_eq_one_iff.1 hlen
    exact hne r hr

end Everywhere

end JsonRules.Rule
