import JsonRules.Proofs.Unicode.CodeSet
import JsonRules.Unicode.Complement

/-!
# Complements of normal sets

The complement of a normal set is normal, all its bounds fit in 32 bits, and its own complement has
the code points of the set again.
-/

namespace JsonRules.Unicode.CodeSet

variable {start : Nat} {s : CodeSet}

theorem NormalFrom.mono (h : NormalFrom start s) {first : Nat} (hle : first ≤ start) :
    NormalFrom first s := by
  cases s with
  | nil => trivial
  | cons r rest =>
    obtain ⟨hlo, hrest⟩ := h
    exact ⟨Nat.le_trans hle hlo, hrest⟩

theorem NormalFrom.le_maxCode (h : NormalFrom start s) {code : Nat}
    (hcode : s.contains code = true) : code ≤ maxCode := by
  induction s generalizing start with
  | nil => exact absurd hcode not_contains_nil
  | cons r rest ih =>
    obtain ⟨-, -, hmax, hrest⟩ := h
    rw [contains_cons] at hcode
    rcases hcode with ⟨-, hhi⟩ | hcode
    · exact Nat.le_trans hhi hmax
    · exact ih hrest hcode

theorem normalFrom_complementFrom (h : NormalFrom start s) :
    NormalFrom start (complementFrom start s) := by
  induction s generalizing start with
  | nil =>
    rw [complementFrom]
    split
    · next hle => exact ⟨Nat.le_refl _, hle, Nat.le_refl _, trivial⟩
    · trivial
  | cons r rest ih =>
    obtain ⟨hlo, hle, hmax, hrest⟩ := h
    have hafter := ih hrest
    rw [complementFrom]
    split
    · next hlt =>
      have hbefore : start ≤ r.lo - 1 ∧ r.lo - 1 ≤ maxCode ∧ r.lo - 1 + 1 ≤ r.hi + 1 := by omega
      exact ⟨Nat.le_refl _, hbefore.1, hbefore.2.1, hafter.mono hbefore.2.2⟩
    · exact hafter.mono (by omega)

/-- No bound of the complement of a normal set falls below zero or does not fit. -/
theorem complementFrom?_eq (h : NormalFrom start s) :
    complementFrom? start s = some (complementFrom start s) := by
  induction s generalizing start with
  | nil => rfl
  | cons r rest ih =>
    obtain ⟨hlo, hle, hmax, hrest⟩ := h
    have hnext : r.hi + 1 < 0x100000000 := by
      unfold maxCode at hmax
      omega
    rw [complementFrom?, complementFrom, Word.add?_of_lt hnext]
    split
    · next hlt =>
      rw [Word.sub?_of_le (Nat.succ_le_of_lt (Nat.zero_lt_of_lt hlt))]
      simp only [Option.bind_eq_bind, Option.bind_some, ih hrest]
      rfl
    · simp only [Option.bind_eq_bind, Option.bind_some, ih hrest]
      rfl

theorem contains_complement_iff (h : s.Normal) {code : Nat} :
    s.complement.contains code = true ↔ code ≤ maxCode ∧ ¬ s.contains code = true := by
  have hnormal : s.complement.Normal := normalFrom_complementFrom h
  constructor
  · intro hcode
    have hmax := hnormal.le_maxCode hcode
    rw [contains_complement h hmax] at hcode
    exact ⟨hmax, by simpa using hcode⟩
  · rintro ⟨hmax, hcode⟩
    rw [contains_complement h hmax]
    simpa using hcode

/-- The complement of the complement has the same code points, but it may join ranges. -/
theorem contains_complement_complement (h : s.Normal) (code : Nat) :
    s.complement.complement.contains code = s.contains code := by
  have hnormal : s.complement.Normal := normalFrom_complementFrom h
  rw [Bool.eq_iff_iff, contains_complement_iff hnormal, contains_complement_iff h]
  constructor
  · rintro ⟨hmax, hcode⟩
    by_cases hin : s.contains code = true
    · exact hin
    · exact absurd ⟨hmax, hin⟩ hcode
  · intro hcode
    exact ⟨NormalFrom.le_maxCode h hcode, fun hout => hout.2 hcode⟩

end JsonRules.Unicode.CodeSet
