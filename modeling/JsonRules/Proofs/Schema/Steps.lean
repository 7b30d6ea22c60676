import JsonRules.Proofs.Rule.Accept
import JsonRules.Proofs.Schema.Transfer

/-!
# Steps back

What is accepted where a match may take some number of steps back is accepted where it may take
more. A match that is given up counts as none, and no rule asks for a text that does not match: had
the match an answer, no value that is accepted would be rejected.
-/

namespace JsonRules

namespace Check

theorem holds_pattern {p : Pattern} {s : String} :
    (pattern p).Holds (.str s) ↔ p.isMatch s = .ok true := by
  simp only [Holds, violation?]
  split <;> simp_all

theorem Holds.raise (steps : Nat) {c : Check} {v : Value} (h : c.Holds v) :
    (c.raise steps).Holds v := by
  cases c with
  | pattern p =>
    cases v with
    | str s => exact holds_pattern.2 (Pattern.isMatch_raise steps (holds_pattern.1 h))
    | _ => rfl
  | _ => exact h

/-- What holds holds whatever the answers to the matches are that are given up. -/
theorem Holds.holdsWith (answer : Pattern → String → Prop) {c : Check} {v : Value} (h : c.Holds v) :
    c.HoldsWith answer v := by
  cases c with
  | pattern p =>
    cases v with
    | str s => rw [HoldsWith, holds_pattern.1 h]
    | _ => exact h
  | _ => exact h

/-- A match that is given up counts as none. -/
theorem holds_of_holdsWith_false {c : Check} {v : Value} (h : c.HoldsWith (fun _ _ => False) v) :
    c.Holds v := by
  cases c with
  | pattern p =>
    cases v with
    | str s =>
      rw [HoldsWith] at h
      split at h
      · next matched hmatch =>
        rw [h] at hmatch
        exact holds_pattern.2 hmatch
      · exact h.elim
    | _ => exact h
  | _ => exact h

end Check

/-- A value is accepted exactly if it is accepted whatever the answers to the matches are that are
given up, wherever in the tree their patterns lie. -/
theorem Rule.evaluate_eq_ok_iff_forall_holdsWith {rule : Rule} {v : Value} {l : Location} :
    rule.evaluate v l = .ok () ↔ ∀ answer, rule.Accepts (Check.HoldsWith answer) v := by
  rw [evaluate_eq_ok_iff]
  constructor
  · intro h answer
    rw [← rule.map_id]
    exact h.map fun c v hc => hc.holdsWith answer
  · intro h
    rw [← rule.map_id]
    exact (h fun _ _ => False).map fun c v hc => Check.holds_of_holdsWith_false hc

namespace Schema

/-- Acceptance is monotone in the steps back that a match may take, and never rests on a match that
takes too many. -/
theorem accepts_mono_steps {limits : Limits} {more : Nat} (hsteps : limits.pattern.steps ≤ more)
    {root : String} {schema : Value} {rule : Rule} (h : compile limits root schema = .ok rule) :
    (∃ other, compile ⟨limits.depth, ⟨limits.pattern.size, more⟩⟩ root schema = .ok other ∧
      ∀ v l, rule.evaluate v l = .ok () → other.evaluate v l = .ok ()) ∧
    ∀ v l, rule.evaluate v l = .ok () ↔ ∀ answer, rule.Accepts (Check.HoldsWith answer) v := by
  have hmore : compile ⟨limits.depth, ⟨limits.pattern.size, more⟩⟩ root schema =
      .ok (rule.map id (Check.raise more)) :=
    compileAt_raised h (Nat.le_refl _) hsteps (Nat.le_refl _)
  refine ⟨⟨_, hmore, fun v l hv => ?_⟩, fun _ _ => Rule.evaluate_eq_ok_iff_forall_holdsWith⟩
  rw [Rule.evaluate_eq_ok_iff] at hv ⊢
  exact hv.map fun c v hc => hc.raise more

/-- An array holds a text with a part that `c` follows. -/
def beforeC : Value := .obj [("contains", .obj [("pattern", .str "(a|ab)(?=c)")])]

theorem accepts_beforeC : ∃ rule other,
    compile ⟨1, ⟨100, 1⟩⟩ "root" beforeC = .ok rule ∧
      compile ⟨1, ⟨100, 2⟩⟩ "root" beforeC = .ok other ∧
        rule.evaluate (.arr [.str "x", .str "abc"]) .root = .ok () ∧
          other.evaluate (.arr [.str "x", .str "abc"]) .root = .ok () := by
  have hpass : (compile ⟨1, ⟨100, 1⟩⟩ "root" beforeC).toOption.any (fun rule =>
      (rule.error? (.arr [.str "x", .str "abc"]) .root).isNone) = true := by
    decide +kernel
  cases hrule : compile ⟨1, ⟨100, 1⟩⟩ "root" beforeC with
  | error e => rw [hrule] at hpass; cases hpass
  | ok rule =>
    rw [hrule] at hpass
    have haccepts : rule.evaluate (.arr [.str "x", .str "abc"]) .root = .ok () := by
      rw [Rule.evaluate_eq_ok_iff, ← Rule.error?_eq_none_iff rule _ .root]
      exact Option.isNone_iff_eq_none.1 hpass
    have hsteps : PatternLimits.steps ⟨100, 1⟩ ≤ 2 := by decide
    obtain ⟨⟨other, hother, hmore⟩, -⟩ := accepts_mono_steps hsteps hrule
    exact ⟨rule, other, rfl, hother, haccepts, hmore _ _ haccepts⟩

end Schema

end JsonRules
