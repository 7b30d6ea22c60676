import JsonRules.Unicode.CodeSet

/-!
# Sets of code points

What the operations on lists of ranges do to the code points in them: the complement of a normal
set has exactly the others, and joining ranges keeps all code points while it leaves a gap between
any two ranges of the result.
-/

namespace JsonRules.Unicode

namespace CodeRange

def Has (r : CodeRange) (code : Nat) : Prop := r.lo ≤ code ∧ code ≤ r.hi

theorem has_mk {lo hi code : Nat} : Has ⟨lo, hi⟩ code ↔ lo ≤ code ∧ code ≤ hi := Iff.rfl

end CodeRange

namespace CodeSet

theorem contains_iff {s : CodeSet} {code : Nat} :
    s.contains code = true ↔ ∃ r ∈ s, r.Has code := by
  simp [contains, CodeRange.Has]

theorem not_contains_nil {code : Nat} : ¬ contains [] code = true := by simp [contains_iff]

theorem contains_singleton {r : CodeRange} {code : Nat} :
    contains [r] code = true ↔ r.Has code := by
  simp [contains_iff]

theorem contains_cons {r : CodeRange} {s : CodeSet} {code : Nat} :
    contains (r :: s) code = true ↔ r.Has code ∨ contains s code = true := by
  simp [contains_iff]

theorem contains_append {s t : CodeSet} {code : Nat} :
    contains (s ++ t) code = (contains s code || contains t code) := by
  simp [contains]

theorem not_contains_below {start : Nat} {s : CodeSet} (h : NormalFrom start s) {code : Nat}
    (hcode : code < start) : ¬ s.contains code = true := by
  induction s generalizing start with
  | nil => simp [contains_iff]
  | cons r rest ih =>
    obtain ⟨hlo, hle, -, hrest⟩ := h
    rw [contains_cons]
    rintro (⟨hr, -⟩ | hr)
    · omega
    · exact ih hrest (by omega) hr

/-- From a start on the complement has what a normal set has not. -/
theorem contains_complementFrom {start : Nat} {s : CodeSet} (h : NormalFrom start s) {code : Nat}
    (hmax : code ≤ maxCode) :
    (complementFrom start s).contains code = true ↔ start ≤ code ∧ ¬ s.contains code = true := by
  induction s generalizing start with
  | nil =>
    rw [complementFrom]
    split
    · rw [contains_singleton, CodeRange.has_mk]
      exact ⟨fun h => ⟨h.1, not_contains_nil⟩, fun h => ⟨h.1, hmax⟩⟩
    · exact ⟨fun h => absurd h not_contains_nil, fun h => by omega⟩
  | cons r rest ih =>
    obtain ⟨hlo, hle, -, hrest⟩ := h
    have hgap : ∀ code, code ≤ r.hi → ¬ contains rest code = true := fun code hc =>
      not_contains_below hrest (Nat.lt_succ_of_le hc)
    rw [complementFrom, contains_cons]
    split
    · rw [contains_cons, ih hrest, CodeRange.has_mk, CodeRange.Has]
      constructor
      · rintro (⟨h1, h2⟩ | ⟨h1, h2⟩)
        · exact ⟨h1, fun hor => hor.elim (fun hr => by omega) (hgap code (by omega))⟩
        · exact ⟨by omega, fun hor => hor.elim (fun hr => by omega) h2⟩
      · rintro ⟨h1, h2⟩
        rw [not_or] at h2
        by_cases hc : code < r.lo
        · exact .inl ⟨h1, by omega⟩
        · exact .inr ⟨by omega, h2.2⟩
    · rw [ih hrest, CodeRange.Has]
      constructor
      · rintro ⟨h1, h2⟩
        exact ⟨by omega, fun hor => hor.elim (fun hr => by omega) h2⟩
      · rintro ⟨h1, h2⟩
        rw [not_or] at h2
        exact ⟨by omega, h2.2⟩

/-- The complement of a normal set has exactly the code points that the set has not. -/
theorem contains_complement {s : CodeSet} (h : s.Normal) {code : Nat} (hmax : code ≤ maxCode) :
    s.complement.contains code = !s.contains code := by
  rw [Bool.eq_iff_iff, complement, contains_complementFrom h hmax]
  simp

/-- There is a code point between any two of the ranges. -/
abbrev Separated (s : CodeSet) : Prop := s.Pairwise fun a b => a.hi + 1 < b.lo

/-- What holds of ranges and goes over from two that touch to the one that covers them holds of
joined ranges. -/
theorem forall_joinFrom {P : CodeRange → Prop}
    (merge : ∀ a b, P a → P b → b.lo ≤ a.hi + 1 → P ⟨a.lo, max a.hi b.hi⟩) (s : CodeSet) :
    ∀ r, P r → (∀ x ∈ s, P x) → ∀ x ∈ joinFrom r s, P x := by
  induction s with
  | nil => intro r hr _ x hx; rw [joinFrom, List.mem_singleton] at hx; exact hx ▸ hr
  | cons next rest ih =>
    intro r hr hs
    obtain ⟨hnext, hrest⟩ := List.forall_mem_cons.1 hs
    rw [joinFrom]
    split
    · next htouch => exact ih _ (merge r next hr hnext htouch) hrest
    · exact List.forall_mem_cons.2 ⟨hr, ih next hnext hrest⟩

theorem joinFrom_lo_le {s : CodeSet} : ∀ {r : CodeRange}, (∀ x ∈ s, r.lo ≤ x.lo) →
    s.Pairwise (fun a b => a.lo ≤ b.lo) → ∀ x ∈ joinFrom r s, r.lo ≤ x.lo := by
  induction s with
  | nil => intro r _ _ x hx; rw [joinFrom, List.mem_singleton] at hx; exact hx ▸ Nat.le_refl _
  | cons next rest ih =>
    intro r hr hs
    obtain ⟨hnext, hrest⟩ := List.forall_mem_cons.1 hr
    obtain ⟨hle, hs⟩ := List.pairwise_cons.1 hs
    rw [joinFrom]
    split
    · exact ih hrest hs
    · refine List.forall_mem_cons.2 ⟨Nat.le_refl _, fun x hx => ?_⟩
      exact Nat.le_trans hnext (ih hle hs x hx)

/-- Ranges in the order of their lower ends are joined into ranges that have the same code points
and leave gaps between them. -/
theorem joinFrom_spec {s : CodeSet} : ∀ {r : CodeRange}, r.lo ≤ r.hi →
    (∀ x ∈ s, r.lo ≤ x.lo ∧ x.lo ≤ x.hi) → s.Pairwise (fun a b => a.lo ≤ b.lo) →
    Separated (joinFrom r s) ∧
      ∀ code, contains (joinFrom r s) code = true ↔ r.Has code ∨ contains s code = true := by
  induction s with
  | nil => intro r _ _ _; exact ⟨List.pairwise_singleton _ r, fun code => contains_cons⟩
  | cons next rest ih =>
    intro r hle hr hs
    obtain ⟨⟨hlo, hnext⟩, hrest⟩ := List.forall_mem_cons.1 hr
    obtain ⟨hafter, hs⟩ := List.pairwise_cons.1 hs
    rw [joinFrom]
    split
    · next htouch =>
      have hle' : r.lo ≤ max r.hi next.hi := Nat.le_trans hle (Nat.le_max_left _ _)
      obtain ⟨hsep, hhas⟩ := ih (r := ⟨r.lo, max r.hi next.hi⟩) hle' hrest hs
      refine ⟨hsep, fun code => ?_⟩
      have hboth : CodeRange.Has ⟨r.lo, max r.hi next.hi⟩ code ↔ r.Has code ∨ next.Has code := by
        simp only [CodeRange.Has]
        omega
      rw [hhas, hboth, contains_cons, or_assoc]
    · next htouch =>
      obtain ⟨hsep, hhas⟩ := ih hnext (fun x hx => ⟨hafter x hx, (hrest x hx).2⟩) hs
      refine ⟨List.pairwise_cons.2 ⟨fun x hx => ?_, hsep⟩, fun code => ?_⟩
      · have := joinFrom_lo_le hafter hs x hx
        omega
      · rw [contains_cons, hhas, contains_cons]

section OfRanges

variable (ranges : List CodeRange)

/-- The ranges that are joined, in order. -/
theorem sorted_ranges : ((ranges.filter fun r => r.lo ≤ r.hi).mergeSort
    fun a b => a.lo ≤ b.lo).Pairwise fun a b => a.lo ≤ b.lo := by
  have htrans : ∀ a b c : CodeRange, decide (a.lo ≤ b.lo) = true → decide (b.lo ≤ c.lo) = true →
      decide (a.lo ≤ c.lo) = true := by
    intro a b c hab hbc
    simp only [decide_eq_true_iff] at *
    omega
  have htotal : ∀ a b : CodeRange, (decide (a.lo ≤ b.lo) || decide (b.lo ≤ a.lo)) = true := by
    intro a b
    simp only [Bool.or_eq_true, decide_eq_true_iff]
    omega
  exact (List.pairwise_mergeSort htrans htotal _).imp fun h => of_decide_eq_true h

theorem mem_sorted_ranges {r : CodeRange} : (r ∈ (ranges.filter fun r => r.lo ≤ r.hi).mergeSort
    fun a b => a.lo ≤ b.lo) ↔ r ∈ ranges ∧ r.lo ≤ r.hi := by
  rw [List.mem_mergeSort, List.mem_filter, decide_eq_true_iff]

theorem ofRanges_spec : Separated (ofRanges ranges) ∧
    ∀ code, contains (ofRanges ranges) code = contains ranges code := by
  have hmem := @mem_sorted_ranges ranges
  have hsorted := sorted_ranges ranges
  rw [ofRanges]
  generalize (ranges.filter fun r => r.lo ≤ r.hi).mergeSort (fun a b => a.lo ≤ b.lo) = sorted
    at hmem hsorted ⊢
  have hcontains : ∀ code, contains sorted code = true ↔ contains ranges code = true := by
    intro code
    simp only [contains_iff, hmem]
    constructor
    · rintro ⟨r, ⟨hr, -⟩, hcode⟩; exact ⟨r, hr, hcode⟩
    · rintro ⟨r, hr, hcode⟩; exact ⟨r, ⟨hr, Nat.le_trans hcode.1 hcode.2⟩, hcode⟩
  cases sorted with
  | nil => exact ⟨List.Pairwise.nil, fun code => by rw [Bool.eq_iff_iff, ← hcontains]; rfl⟩
  | cons r rest =>
    obtain ⟨hle, hpairs⟩ := List.pairwise_cons.1 hsorted
    obtain ⟨hsep, hhas⟩ := joinFrom_spec (hmem.1 List.mem_cons_self).2
      (fun x hx => ⟨hle x hx, (hmem.1 (List.mem_cons_of_mem _ hx)).2⟩) hpairs
    refine ⟨hsep, fun code => ?_⟩
    rw [Bool.eq_iff_iff, ← hcontains, contains_cons]
    exact hhas code

/-- What holds of all non-empty ranges holds of the joined ones, if merging keeps it. -/
theorem forall_ofRanges {P : CodeRange → Prop}
    (merge : ∀ a b, P a → P b → b.lo ≤ a.hi + 1 → P ⟨a.lo, max a.hi b.hi⟩)
    (h : ∀ r ∈ ranges, r.lo ≤ r.hi → P r) : ∀ r ∈ ofRanges ranges, P r := by
  have hmem := @mem_sorted_ranges ranges
  rw [ofRanges]
  generalize (ranges.filter fun r => r.lo ≤ r.hi).mergeSort (fun a b => a.lo ≤ b.lo) = sorted
    at hmem ⊢
  cases sorted with
  | nil => exact List.forall_mem_nil _
  | cons r rest =>
    have hall : ∀ x ∈ r :: rest, P x := fun x hx => h x (hmem.1 hx).1 (hmem.1 hx).2
    obtain ⟨hr, hrest⟩ := List.forall_mem_cons.1 hall
    exact forall_joinFrom merge rest r hr hrest

end OfRanges

end CodeSet

end JsonRules.Unicode
