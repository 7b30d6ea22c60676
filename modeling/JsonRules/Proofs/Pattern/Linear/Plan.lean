import JsonRules.Pattern.Linear.Plan
import JsonRules.Proofs.Pattern.Linear.Spans

/-!
# The search by sets of positions is right

`Plan.advance` takes a set of positions to all those where a stretch from one of them ends. What
the search for repetitions relies on is that the positions already reached need not be tried again,
and that no more rounds are needed than the text has positions.
-/

namespace JsonRules.Pattern.Linear

def Within (size s : Nat) : Prop := ∀ i, s.testBit i = true → i < size

/-- The function takes a set of positions to those that the relation leads to from them. -/
def Advances (size : Nat) (R : Nat → Nat → Prop) (f : Nat → Nat) : Prop :=
  ∀ s, Within size s → ∀ j, (f s).testBit j = true ↔ ∃ i, s.testBit i = true ∧ R i j

/-- The relation leads forward, and not out of the positions. -/
def Forward (size : Nat) (R : Nat → Nat → Prop) : Prop :=
  ∀ i j, R i j → i ≤ j ∧ (i < size → j < size)

section Search

variable {size : Nat} {R : Nat → Nat → Prop} {f : Nat → Nat}

theorem Advances.within (hf : Advances size R f) (hR : Forward size R) {s : Nat}
    (hs : Within size s) : Within size (f s) := by
  intro j hj
  obtain ⟨i, hi, hij⟩ := (hf s hs j).1 hj
  exact (hR i j hij).2 (hs i hi)

theorem iterate_fixed {s : Nat} (h : f s = s) (n : Nat) : iterate f n s = s := by
  cases n with
  | zero => rfl
  | succ n => rw [iterate, if_pos h]

theorem iterate_succ (n s : Nat) : iterate f (n + 1) s = iterate f n (f s) := by
  rw [iterate]
  split
  · next hfix => rw [hfix, iterate_fixed hfix]
  · rfl

theorem testBit_iterate (hf : Advances size R f) (hR : Forward size R) (n : Nat) {s : Nat}
    (hs : Within size s) (j : Nat) :
    (iterate f n s).testBit j = true ↔ ∃ i, s.testBit i = true ∧ Times R n i j := by
  induction n generalizing s with
  | zero => exact ⟨fun h => ⟨j, h, rfl⟩, fun ⟨i, hi, hij⟩ => hij ▸ hi⟩
  | succ n ih =>
    rw [iterate_succ, ih (hf.within hR hs)]
    constructor
    · rintro ⟨x, hx, htimes⟩
      obtain ⟨i, hi, hix⟩ := (hf s hs x).1 hx
      exact ⟨i, hi, x, hix, htimes⟩
    · rintro ⟨i, hi, x, hix, htimes⟩
      exact ⟨x, (hf s hs x).2 ⟨i, hi, hix⟩, htimes⟩

theorem testBit_reached (found reached i : Nat) :
    (reached ||| (found ^^^ (found &&& reached))).testBit i =
      (reached.testBit i || found.testBit i) := by
  rw [Nat.testBit_or, Nat.testBit_xor, Nat.testBit_and]
  cases found.testBit i <;> cases reached.testBit i <;> rfl

/-- The positions that have been reached lead nowhere else, apart from the new ones among them. -/
structure Frontier (R : Nat → Nat → Prop) (reached new : Nat) : Prop where
  subset : ∀ i, new.testBit i = true → reached.testBit i = true
  closed : ∀ i j, reached.testBit i = true → new.testBit i = false → R i j →
    reached.testBit j = true

theorem Frontier.start (s : Nat) : Frontier R s s :=
  ⟨fun _ h => h, fun i j h h' => absurd h (by rw [h']; decide)⟩

/-- One round of the search reaches what one step from the reached positions does. -/
theorem Frontier.testBit_round (hf : Advances size R f) {reached new : Nat}
    (h : Frontier R reached new) (hw : Within size reached) (j : Nat) :
    (reached ||| (f new ^^^ (f new &&& reached))).testBit j = true ↔
      reached.testBit j = true ∨ ∃ i, reached.testBit i = true ∧ R i j := by
  have hnew := hf new (fun i hi => hw i (h.subset i hi)) j
  rw [testBit_reached, Bool.or_eq_true, hnew]
  constructor
  · rintro (hj | ⟨i, hi, hij⟩)
    · exact .inl hj
    · exact .inr ⟨i, h.subset i hi, hij⟩
  · rintro (hj | ⟨i, hi, hij⟩)
    · exact .inl hj
    · cases hni : new.testBit i with
      | false => exact .inl (h.closed i j hi hni hij)
      | true => exact .inr ⟨i, hni, hij⟩

/-- What is found first from the frontier is the next frontier. -/
theorem Frontier.next (hf : Advances size R f) {reached new : Nat} (h : Frontier R reached new)
    (hw : Within size reached) :
    Frontier R (reached ||| (f new ^^^ (f new &&& reached)))
      (f new ^^^ (f new &&& reached)) := by
  refine ⟨fun i hi => by rw [Nat.testBit_or, hi, Bool.or_true], fun i j hi hfresh hij => ?_⟩
  have hreached : reached.testBit i = true := by
    rwa [Nat.testBit_or, hfresh, Bool.or_false] at hi
  exact (h.testBit_round hf hw j).2 (.inr ⟨i, hreached, hij⟩)

/-- The search reaches what up to `n` steps from the reached positions do. -/
theorem testBit_spread (hf : Advances size R f) (hR : Forward size R) (n : Nat) {reached new : Nat}
    (h : Frontier R reached new) (hw : Within size reached) (j : Nat) :
    (spread f n reached new).testBit j = true ↔
      ∃ i k, reached.testBit i = true ∧ k ≤ n ∧ Times R k i j := by
  induction n generalizing reached new with
  | zero =>
    constructor
    · exact fun hj => ⟨j, 0, hj, Nat.le_refl _, rfl⟩
    · rintro ⟨i, k, hi, hk, htimes⟩
      obtain rfl := Nat.le_zero.1 hk
      obtain rfl : i = j := htimes
      exact hi
  | succ n ih =>
    have hround := h.testBit_round hf hw
    have hnext := h.next hf hw
    rw [spread]
    split
    · next hfresh =>
      -- no step leads out of the reached positions
      rw [hfresh, Nat.or_zero] at hround
      have closed : ∀ x y, R x y → reached.testBit x = true → reached.testBit y = true :=
        fun x y hxy hx => (hround y).2 (.inr ⟨x, hx, hxy⟩)
      exact ⟨fun hj => ⟨j, 0, hj, Nat.zero_le _, rfl⟩,
        fun ⟨i, k, hi, _, htimes⟩ => htimes.preserves closed hi⟩
    · have hw' : Within size (reached ||| (f new ^^^ (f new &&& reached))) := fun y hy =>
        ((hround y).1 hy).elim (hw y) fun ⟨x, hx, hxy⟩ => (hR x y hxy).2 (hw x hx)
      rw [ih hnext hw']
      constructor
      · rintro ⟨i, k, hi, hk, htimes⟩
        rcases (hround i).1 hi with hi | ⟨x, hx, hxi⟩
        · exact ⟨i, k, hi, by omega, htimes⟩
        · exact ⟨x, k + 1, hx, by omega, i, hxi, htimes⟩
      · rintro ⟨i, k, hi, hk, htimes⟩
        cases k with
        | zero => exact ⟨i, 0, (hround i).2 (.inl hi), Nat.zero_le _, htimes⟩
        | succ k =>
          obtain ⟨x, hix, hrest⟩ := htimes
          exact ⟨x, k, (hround x).2 (.inr ⟨i, hi, hix⟩), by omega, hrest⟩

/-- Repetition reaches what a number of steps within its bounds does. -/
theorem testBit_repeated (hf : Advances size R f) (hR : Forward size R) {least : Nat}
    {most : Option Nat} (hmost : ∀ m, most = some m → least ≤ m) :
    Advances size (fun i j => ∃ n, InBounds least most n ∧ Times R n i j)
      (repeated f size least most) := by
  intro s hs j
  have hle : ∀ i j, R i j → i ≤ j := fun i j h => (hR i j h).1
  have hlt : ∀ {n i j}, Times R n i j → i < size → j < size :=
    fun h => h.preserves fun i j hij => (hR i j hij).2
  have hw : Within size (iterate f least s) := by
    intro x hx
    obtain ⟨i, hi, htimes⟩ := (testBit_iterate hf hR least hs x).1 hx
    exact hlt htimes (hs i hi)
  unfold repeated
  rw [testBit_spread hf hR _ (.start _) hw]
  constructor
  · rintro ⟨x, k, hx, hk, hrest⟩
    obtain ⟨i, hi, hfirst⟩ := (testBit_iterate hf hR least hs x).1 hx
    refine ⟨i, hi, least + k, ⟨Nat.le_add_right _ _, ?_⟩, hfirst.append hrest⟩
    rintro m rfl
    have := hmost m rfl
    simp only at hk
    omega
  · rintro ⟨i, hi, n, ⟨hleast, hn⟩, htimes⟩
    obtain ⟨k, rfl⟩ := Nat.exists_eq_add_of_le hleast
    obtain ⟨x, hfirst, hrest⟩ := htimes.split
    have hx := (testBit_iterate hf hR least hs x).2 ⟨i, hi, hfirst⟩
    cases most with
    | some m =>
      have := hn m rfl
      exact ⟨x, k, hx, by simp only; omega, hrest⟩
    | none =>
      obtain ⟨k', hk', hshort⟩ := hrest.shorten hle
      have := hlt hrest (hw x hx)
      exact ⟨x, k', hx, by simp only; omega, hshort⟩

end Search

theorem testBit_charPositions (p : Char → Bool) (text : List Char) (i : Nat) :
    (charPositions p text).testBit i = (text[i]?).any p := by
  induction text generalizing i with
  | nil => simp [charPositions]
  | cons c rest ih =>
    have hstep : charPositions p (c :: rest) = 2 * charPositions p rest + (p c).toNat := rfl
    cases i with
    | zero =>
      rw [hstep, Nat.testBit_zero]
      cases hc : p c <;> simp [Nat.add_mod, hc]
    | succ i =>
      have hhalf : (2 * charPositions p rest + (p c).toNat) / 2 = charPositions p rest := by
        have := Bool.toNat_le (p c)
        omega
      rw [hstep, Nat.testBit_succ, hhalf, ih, List.getElem?_cons_succ]

theorem testBit_one_shiftLeft (n i : Nat) : (1 <<< n).testBit i = true ↔ i = n := by
  rw [Nat.one_shiftLeft, Nat.testBit_two_pow, decide_eq_true_iff, eq_comm]

/-- An assertion's set has the positions where it holds. -/
theorem testBit_places (text : List Char) (a : Assertion) (i : Nat) :
    ((Places.ofText text).get a).testBit i = a.holds text i := by
  cases a with
  | start =>
    rw [Bool.eq_iff_iff, Places.get, Places.ofText, Nat.testBit_one_eq_true_iff_self_eq_zero,
      Assertion.holds, beq_iff_eq]
  | stop =>
    rw [Bool.eq_iff_iff, Places.get, Places.ofText, testBit_one_shiftLeft, Assertion.holds,
      beq_iff_eq]
  | wordBoundary =>
    have hword : ∀ i, (charPositions isWordChar text).testBit i = wordAt text i :=
      fun i => testBit_charPositions isWordChar text i
    rw [Places.get, Places.ofText, Nat.testBit_xor, Nat.testBit_shiftLeft, hword, Assertion.holds]
    cases i with
    | zero => simp [wordBefore]
    | succ i => rw [Nat.add_sub_cancel, hword, wordBefore]; simp [Bool.xor_comm]

theorem forward_spans (text : List Char) (r : Regex) :
    Forward (text.length + 1) (Regex.Spans text r) :=
  fun _ _ h => ⟨h.bounds.1, fun hi => Nat.lt_succ_of_le (h.bounds.2 (Nat.le_of_lt_succ hi))⟩

/-- The plan of an expression advances by what the expression spans. -/
theorem advances_plan (text : List Char) (r : Regex) (h : r.Satisfiable) :
    Advances (text.length + 1) (Regex.Spans text r)
      ((r.plan text (Places.ofText text)).advance (text.length + 1)) := by
  induction r with
  | empty =>
    intro s _ j
    simp only [Regex.plan, Plan.advance, Regex.spans_empty]
    exact ⟨fun hj => ⟨j, hj, rfl⟩, fun ⟨i, hi, hij⟩ => hij ▸ hi⟩
  | set chars =>
    intro s _ j
    simp only [Regex.plan, Plan.advance, Regex.spans_set, Nat.testBit_shiftLeft, Nat.testBit_and,
      testBit_charPositions, Bool.and_eq_true, decide_eq_true_iff, Option.any_eq_true]
    constructor
    · rintro ⟨hj, hs, c, hc, hhas⟩
      exact ⟨j - 1, hs, by omega, c, hc, hhas⟩
    · rintro ⟨i, hi, rfl, c, hc, hhas⟩
      rw [Nat.add_sub_cancel]
      exact ⟨Nat.le_add_left _ _, hi, c, hc, hhas⟩
  | assert a =>
    intro s _ j
    simp only [Regex.plan, Plan.advance, Regex.spans_assert, Nat.testBit_and, Bool.and_eq_true,
      testBit_places]
    constructor
    · rintro ⟨hj, hholds⟩
      exact ⟨j, hj, rfl, hholds⟩
    · rintro ⟨i, hi, rfl, hholds⟩
      exact ⟨hi, hholds⟩
  | seq r q ihr ihq =>
    intro s hs j
    have hmid := (ihr h.1).within (forward_spans text r) hs
    simp only [Regex.plan, Plan.advance, Regex.spans_seq]
    rw [ihq h.2 _ hmid]
    constructor
    · rintro ⟨x, hx, hxj⟩
      obtain ⟨i, hi, hix⟩ := (ihr h.1 s hs x).1 hx
      exact ⟨i, hi, x, hix, hxj⟩
    · rintro ⟨i, hi, x, hix, hxj⟩
      exact ⟨x, (ihr h.1 s hs x).2 ⟨i, hi, hix⟩, hxj⟩
  | alt r q ihr ihq =>
    intro s hs j
    simp only [Regex.plan, Plan.advance, Regex.spans_alt, Nat.testBit_or, Bool.or_eq_true,
      ihr h.1 s hs, ihq h.2 s hs, and_or_left, exists_or]
  | rep least most greedy r ih =>
    have hrep := testBit_repeated (ih h.2) (forward_spans text r) h.1
    intro s hs j
    simp only [Regex.plan, Plan.advance, Regex.spans_rep h.1]
    exact hrep s hs j

theorem testBit_allPositions (text : List Char) (i : Nat) :
    (allPositions text).testBit i = true ↔ i ≤ text.length := by
  rw [allPositions, Nat.one_shiftLeft, Nat.testBit_two_pow_sub_one, decide_eq_true_iff]
  exact Nat.lt_succ_iff

/-- The search finds a match exactly if there is one. -/
theorem Regex.isMatch_iff (r : Regex) (h : r.Satisfiable) (text : List Char) :
    r.isMatch text = true ↔ r.Matches text := by
  have hadvance := advances_plan text r h (allPositions text) fun i hi =>
    Nat.lt_succ_of_le ((testBit_allPositions text i).1 hi)
  have hzero : ∀ n : Nat, n ≠ 0 ↔ ∃ j, n.testBit j = true := by
    intro n
    constructor
    · exact fun hn => Nat.exists_testBit_of_ne_zero hn
    · rintro ⟨j, hj⟩ rfl
      rw [Nat.zero_testBit] at hj
      cases hj
  rw [isMatch, bne_iff_ne, hzero]
  simp only [hadvance, testBit_allPositions, Matches]
  exact exists_comm

end JsonRules.Pattern.Linear
