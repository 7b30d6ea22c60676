import JsonRules.Pattern

/-!
# Steps back

A match that ends under a limit of steps back ends with the same answer under any higher limit: the
limit is read only where a thread fails, and there only to stop the run.
-/

namespace JsonRules.Pattern.Backtrack

namespace Machine

def back (h : Haystack) (fuel budget count : Nat) (kept : List Thread) : Outcome :=
  match resume budget kept with
  | .inl outcome => outcome
  | .inr (t, budget, kept) => run h fuel budget t (count - 1) kept

/-- A run with more fuel and a larger budget ends as this one does, if this one is not stopped. -/
def Settled (h : Haystack) (fuel more : Nat) : Prop :=
  ∀ {budget larger : Nat}, budget ≤ larger → ∀ (t : Thread) (count : Nat) (kept : List Thread),
    run h fuel budget t count kept ≠ .stopped →
      run h more larger t count kept = run h fuel budget t count kept

theorem Settled.back {h : Haystack} {fuel more budget larger : Nat} (hrun : Settled h fuel more)
    (hle : budget ≤ larger) (count : Nat) (kept : List Thread)
    (hback : back h fuel budget count kept ≠ .stopped) :
    back h more larger count kept = Machine.back h fuel budget count kept := by
  cases kept with
  | nil => rfl
  | cons t rest =>
    cases budget with
    | zero => exact absurd rfl hback
    | succ budget =>
      obtain ⟨larger, rfl⟩ : ∃ n, larger = n + 1 := ⟨larger - 1, by omega⟩
      exact hrun (Nat.le_of_succ_le_succ hle) t _ rest hback

/-- By induction on the fuel: both runs take the same step, and only a step back reads the budget. -/
theorem settled_of_le (h : Haystack) : ∀ {fuel more : Nat}, fuel ≤ more → Settled h fuel more := by
  intro fuel
  induction fuel with
  | zero => intro more _ budget larger _ t count kept hrun; exact absurd rfl hrun
  | succ fuel ih =>
    intro more hfuel budget larger hbudget t count kept hrun
    obtain ⟨more, rfl⟩ : ∃ n, more = n + 1 := ⟨more - 1, by omega⟩
    have hsettled : Settled h fuel more := ih (Nat.le_of_succ_le_succ hfuel)
    unfold run at hrun ⊢
    split
    · rfl
    · next task rest htasks =>
      simp only [htasks] at hrun
      cases hmove : task.exec h count t rest with
      | go t | split t other | cut t n =>
        simp only [hmove] at hrun ⊢
        exact hsettled hbudget _ _ _ hrun
      | fail =>
        simp only [hmove] at hrun ⊢
        exact hsettled.back hbudget count kept hrun
      | failCut n =>
        simp only [hmove] at hrun ⊢
        exact hsettled.back hbudget n (keepFirst n count kept) hrun

end Machine

theorem Program.search_mono (program : Program Piece) (groups : Nat) {limit larger : Nat}
    (hle : limit ≤ larger) (text : List Char) (h : program.search groups limit text ≠ .stopped) :
    program.search groups larger text = program.search groups limit text :=
  Machine.settled_of_le _ (Nat.mul_le_mul_right _ (Nat.succ_le_succ hle)) hle _ _ _ h

end JsonRules.Pattern.Backtrack
