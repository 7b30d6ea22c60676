import JsonRules.Proofs.Text.Quoted
import JsonRules.Schema.Path
import Mathlib.Data.List.Nodup

/-!
# Path texts

Paths with the same root have the same text only if they are the same: no step has a slash in its
text, and no two steps share theirs.
-/

namespace JsonRules

namespace Keyword

/-- All keywords, those of rules included that no schema has. -/
def all : List Keyword := inOrder ++ [allOf, anyOf]

theorem mem_all (k : Keyword) : k ∈ all := by
  cases k with
  | range bound => cases bound <;> decide
  | length bound | arraySize bound => cases bound <;> decide
  | _ => decide

theorem name_injective : Function.Injective name := fun k l h =>
  List.inj_on_of_nodup_map (show (all.map name).Nodup by decide) (mem_all k) (mem_all l) h

theorem name_chars (k : Keyword) : '/' ∉ k.name.toList ∧ ¬k.name.toList.all Char.isDigit := by
  have h : ∀ k ∈ all, '/' ∉ k.name.toList ∧ ¬k.name.toList.all Char.isDigit := by decide
  exact h k (mem_all k)

end Keyword

namespace PathStep

theorem index_text (i : Nat) : (index i).text.toList = Nat.toDigits 10 i := by
  rw [text, Nat.toString_eq_repr, Nat.repr, String.toList_ofList]

theorem isDigit_of_mem_index {i : Nat} {c : Char} (h : c ∈ (index i).text.toList) :
    c.isDigit = true := by
  rw [index_text] at h
  exact Nat.isDigit_of_mem_toDigits (by decide) (by decide) h

theorem slash_not_mem (step : PathStep) : '/' ∉ step.text.toList := by
  cases step with
  | keyword k => exact k.name_chars.1
  | index i => exact fun h => absurd (isDigit_of_mem_index h) (by decide)

theorem keyword_text_ne (k : Keyword) (i : Nat) : (keyword k).text ≠ (index i).text := by
  intro h
  refine k.name_chars.2 (List.all_eq_true.2 fun c hc => ?_)
  have hc' : c ∈ (keyword k).text.toList := hc
  rw [h] at hc'
  exact isDigit_of_mem_index hc'

theorem text_injective : Function.Injective text := by
  intro a b h
  cases a with
  | keyword k =>
    cases b with
    | keyword l => rw [Keyword.name_injective h]
    | index j => exact absurd h (keyword_text_ne k j)
  | index i =>
    cases b with
    | keyword l => exact absurd h.symm (keyword_text_ne l i)
    | index j =>
      have hdigits := congrArg String.toList h
      rw [index_text, index_text] at hdigits
      rw [Text.toDigits_inj (by decide) (by decide) hdigits]

end PathStep

namespace SchemaPath

theorem toList_text (p : SchemaPath) :
    p.text.toList = p.root.toList ++ p.steps.flatMap fun step => '/' :: step.text.toList := by
  obtain ⟨root, steps⟩ := p
  unfold text
  induction steps generalizing root with
  | nil => simp
  | cons step rest ih => simp [ih, String.toList_append]

theorem text_key (p : SchemaPath) (k : Keyword) : (p.key k).text = p.text ++ "/" ++ k.name := by
  rw [text, key, List.foldl_append]
  rfl

/-- The slashes before the steps may as well stand after them. -/
theorem slashes_after (steps : List PathStep) :
    (steps.flatMap fun step => '/' :: step.text.toList) ++ ['/'] =
      '/' :: steps.flatMap fun step => step.text.toList ++ ['/'] := by
  induction steps with
  | nil => rfl
  | cons step rest ih => simp [ih]

theorem steps_of_slashes {a b : List PathStep}
    (h : (a.flatMap fun step => step.text.toList ++ ['/']) =
      b.flatMap fun step => step.text.toList ++ ['/']) : a = b := by
  induction a generalizing b with
  | nil =>
    cases b with
    | nil => rfl
    | cons t b => simp at h
  | cons s a ih =>
    cases b with
    | nil => simp at h
    | cons t b =>
      rw [List.flatMap_cons, List.flatMap_cons, List.append_assoc, List.append_assoc] at h
      obtain ⟨htext, hrest⟩ := Text.append_cons_inj s.slash_not_mem t.slash_not_mem h
      rw [PathStep.text_injective (String.toList_inj.1 htext), ih hrest]

/-- A path is known by its text and its root. -/
theorem eq_of_text_eq {p q : SchemaPath} (hroot : p.root = q.root) (h : p.text = q.text) :
    p = q := by
  have hlist := congrArg String.toList h
  rw [toList_text, toList_text, hroot, List.append_cancel_left_eq] at hlist
  have hsteps := congrArg (· ++ ['/']) hlist
  simp only [slashes_after, List.cons.injEq, true_and] at hsteps
  rw [show p = ⟨p.root, p.steps⟩ from rfl, hroot, steps_of_slashes hsteps]

end SchemaPath

end JsonRules
