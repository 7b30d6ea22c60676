import JsonRules.Proofs.Number.Exact
import JsonRules.Proofs.Number.ReadBack
import Mathlib.Data.List.Basic

/-!
# Key texts of numbers

Two numbers have the same key text exactly when they have the same exact value. An integer is
told from a fraction by its characters. A fraction in positional layout splits at its point, and
then the digits on both sides with the length of the second part give the decimal back; one in
scientific layout splits at its `e`. Either way the decimal reads back as the double.
-/

namespace JsonRules

def DigitsOnly (cs : List Char) : Prop := ∀ c ∈ cs, c.isDigit = true

namespace DigitsOnly

theorem toDigits (n : Nat) : DigitsOnly (Nat.toDigits 10 n) := fun _ hc =>
  Nat.isDigit_of_mem_toDigits (by decide) (by decide) hc

theorem replicate_zero (n : Nat) : DigitsOnly (List.replicate n '0') := by
  intro c hc
  rw [List.eq_of_mem_replicate hc]; rfl

theorem append {cs ds : List Char} (hc : DigitsOnly cs) (hd : DigitsOnly ds) :
    DigitsOnly (cs ++ ds) := by
  intro c h
  rcases List.mem_append.1 h with h | h
  · exact hc c h
  · exact hd c h

theorem of_sublist {cs ds : List Char} (h : cs.Sublist ds) (hd : DigitsOnly ds) :
    DigitsOnly cs := fun c hc => hd c (h.subset hc)

theorem not_mem {cs : List Char} (h : DigitsOnly cs) {c : Char} (hc : c.isDigit = false) :
    c ∉ cs := by
  intro hm
  rw [h c hm] at hc; cases hc

theorem filter_eq {cs : List Char} (h : DigitsOnly cs) : cs.filter Char.isDigit = cs :=
  List.filter_eq_self.2 h

end DigitsOnly

theorem toDigits_ten_inj {m n : Nat} (h : Nat.toDigits 10 m = Nat.toDigits 10 n) : m = n := by
  rw [← Nat.ofDigitChars_ten_toDigits (n := m), h, Nat.ofDigitChars_ten_toDigits]

namespace Number

theorem integerText_cases (i : Int) :
    (i < 0 ∧ integerText i = '-' :: Nat.toDigits 10 i.natAbs) ∨
      (0 ≤ i ∧ integerText i = Nat.toDigits 10 i.natAbs) := by
  unfold integerText
  split
  · next h => exact .inl ⟨h, rfl⟩
  · next h => exact .inr ⟨by omega, rfl⟩

theorem integerText_inj {i j : Int} (h : integerText i = integerText j) : i = j := by
  have hminus : ∀ n : Nat, '-' ∉ Nat.toDigits 10 n := fun n => (DigitsOnly.toDigits n).not_mem rfl
  rcases integerText_cases i with ⟨hi, ei⟩ | ⟨hi, ei⟩ <;>
    rcases integerText_cases j with ⟨hj, ej⟩ | ⟨hj, ej⟩ <;> rw [ei, ej] at h
  · have := toDigits_ten_inj (List.cons.inj h).2; omega
  · exact absurd (h ▸ List.mem_cons_self) (hminus j.natAbs)
  · exact absurd (h ▸ List.mem_cons_self) (hminus i.natAbs)
  · have := toDigits_ten_inj h; omega

theorem integerText_chars {i : Int} {c : Char} (h : c ∈ integerText i) :
    c.isDigit = true ∨ c = '-' := by
  have hd := DigitsOnly.toDigits i.natAbs
  rcases integerText_cases i with ⟨-, e⟩ | ⟨-, e⟩ <;> rw [e] at h
  · rcases List.mem_cons.1 h with h | h
    · exact .inr h
    · exact .inl (hd c h)
  · exact .inl (hd c h)

theorem not_mem_integerText {c : Char} (hc : c.isDigit = false) (h : c ≠ '-') (i : Int) :
    c ∉ integerText i := by
  intro hm
  rcases integerText_chars hm with hd | hd
  · rw [hc] at hd; cases hd
  · exact h hd

end Number

namespace DecimalLayout

open Number (integerText keyLayout)

/-- Digits around a point that stand for a decimal: all of them, with the number of those after
the point, give it back. -/
structure Pointed (d : Decimal) (whole fraction : List Char) : Prop where
  whole_digits : DigitsOnly whole
  fraction_digits : DigitsOnly fraction
  whole_ne_nil : whole ≠ []
  value : ∃ k : Nat, (k : Int) = d.exponent + fraction.length ∧
    Nat.ofDigitChars 10 (whole ++ fraction) 0 = d.digits * 10 ^ k

/-- A mantissa that stands for the digits of a decimal. -/
structure Mantissa (d : Decimal) (m : List Char) : Prop where
  chars : ∀ c ∈ m, c.isDigit = true ∨ c = '.'
  digits : m.filter Char.isDigit = d.text
  head : ∃ c t, m = c :: t ∧ c.isDigit = true

theorem positional_split (d : Decimal) :
    ∃ w f, positional d.text (d.exponent + d.text.length) = w ++ '.' :: f ∧ Pointed d w f := by
  have hd : DigitsOnly d.text := .toDigits d.digits
  have hpos : 0 < d.text.length := Nat.length_toDigits_pos
  have hval : Nat.ofDigitChars 10 d.text 0 = d.digits := Nat.ofDigitChars_ten_toDigits
  unfold positional
  split
  · next hw =>
    let zeros := List.replicate (-(d.exponent + d.text.length)).toNat '0'
    have hlen : (zeros ++ d.text).length = (-d.exponent).toNat := by simp [zeros]; omega
    refine ⟨['0'], zeros ++ d.text, rfl, .replicate_zero 1,
      (DigitsOnly.replicate_zero _).append hd, by simp, 0, by rw [hlen]; omega, ?_⟩
    rw [List.singleton_append, ← List.cons_append, ← List.replicate_succ, Nat.ofDigitChars_append,
      Nat.ofDigitChars_replicate_zero, Nat.mul_zero, hval, Nat.pow_zero, Nat.mul_one]
  · next hw =>
    extract_lets w padded fraction
    have hlen : padded.length = d.text.length + (w - d.text.length) := by simp [padded]
    have hpad : DigitsOnly padded := hd.append (.replicate_zero _)
    have hall : Nat.ofDigitChars 10 padded 0 = d.digits * 10 ^ (w - d.text.length) := by
      rw [Nat.ofDigitChars_append, Nat.ofDigitChars_replicate_zero, hval, Nat.mul_comm]
    have htake : padded.take w ≠ [] := List.ne_nil_of_length_pos (by rw [List.length_take]; omega)
    have hjoin : padded.take w ++ fraction = padded := List.take_append_drop w padded
    have hflen : fraction.length = padded.length - w := List.length_drop
    have hwhole : DigitsOnly (padded.take w) := hpad.of_sublist (List.take_sublist _ _)
    split
    · next he =>
      have he : fraction = [] := List.isEmpty_iff.1 he
      have h0 : fraction.length = 0 := by rw [he]; rfl
      refine ⟨_, ['0'], rfl, hwhole, .replicate_zero 1, htake, w - d.text.length + 1,
        by rw [List.length_singleton]; omega, ?_⟩
      rw [he, List.append_nil] at hjoin
      rw [hjoin, Nat.ofDigitChars_append, hall, Nat.ofDigitChars_cons, Nat.ofDigitChars_nil,
        Nat.sub_self, Nat.add_zero, Nat.pow_succ, Nat.mul_left_comm, Nat.mul_comm 10]
    · next he =>
      have h0 : 0 < fraction.length := List.length_pos_iff.2 (fun h => he (List.isEmpty_iff.2 h))
      refine ⟨_, fraction, rfl, hwhole, hpad.of_sublist (List.drop_sublist _ _), htake,
        w - d.text.length, by omega, ?_⟩
      rw [hjoin, hall]

/-- Without a `+` the power of ten in a scientific text is written like an integer. -/
theorem scientific_split (d : Decimal) (power : Int) :
    ∃ m, scientific false d.text power = m ++ 'e' :: integerText power ∧ Mantissa d m := by
  have hsign : (if power < 0 then ['-'] else if false then ['+'] else []) ++
      Nat.toDigits 10 power.natAbs = integerText power := by
    unfold integerText; split <;> rfl
  have hd : DigitsOnly d.text := .toDigits d.digits
  have hfilter := hd.filter_eq
  unfold scientific
  match htext : d.text, hd with
  | [], _ => exact absurd htext Nat.toDigits_ne_nil
  | [c], hd =>
    refine ⟨[c], ?_, fun c hc => .inl (hd c hc), htext ▸ hfilter, c, [], rfl,
      hd c List.mem_cons_self⟩
    simp only [← hsign, List.append_assoc, List.cons_append]
  | c :: e :: rest, hd =>
    refine ⟨c :: '.' :: e :: rest, ?_, ?_, ?_, c, _, rfl, hd c List.mem_cons_self⟩
    · simp only [← hsign, List.append_assoc, List.cons_append]
    · intro x hx
      simp only [List.mem_cons] at hx
      rcases hx with hx | hx | hx
      · exact .inl (hd x (hx ▸ List.mem_cons_self))
      · exact .inr hx
      · exact .inl (hd x (List.mem_cons_of_mem _ (List.mem_cons.2 hx)))
    · rw [htext] at hfilter ⊢
      simp only [List.filter_cons] at hfilter ⊢
      exact hfilter

/-- The two layouts of a magnitude in a key. -/
theorem magnitude_split (d : Decimal) :
    (∃ w f, keyLayout.magnitude d = w ++ '.' :: f ∧ Pointed d w f) ∨
      ∃ m, keyLayout.magnitude d = m ++ 'e' :: integerText (d.exponent + d.text.length - 1) ∧
        Mantissa d m := by
  unfold magnitude
  extract_lets power
  split
  · rw [show power + 1 = d.exponent + d.text.length by omega]
    exact .inl (positional_split d)
  · exact .inr (scientific_split d power)

/-- The first character of a magnitude is a digit. -/
theorem magnitude_head (d : Decimal) :
    ∃ c t, keyLayout.magnitude d = c :: t ∧ c.isDigit = true := by
  rcases magnitude_split d with ⟨w, f, hm, hp⟩ | ⟨m, hm, hp⟩
  · obtain ⟨c, t, rfl⟩ := List.exists_cons_of_ne_nil hp.whole_ne_nil
    exact ⟨c, _, hm, hp.whole_digits c List.mem_cons_self⟩
  · obtain ⟨c, t, rfl, hc⟩ := hp.head
    exact ⟨c, _, hm, hc⟩

theorem Pointed.ofDecimal_eq {d : Decimal} {w f : List Char} (h : Pointed d w f) (negative : Bool) :
    Double.ofDecimal negative d.digits d.exponent =
      Double.ofDecimal negative (Nat.ofDigitChars 10 (w ++ f) 0) (-f.length) := by
  obtain ⟨k, hk, hv⟩ := h.value
  rw [hv, Double.ofDecimal_mul_pow]
  congr 1; omega

theorem Mantissa.not_mem_e {d : Decimal} {m : List Char} (h : Mantissa d m) : 'e' ∉ m := by
  intro hm
  rcases h.chars _ hm with hc | hc <;> cases hc

theorem Pointed.not_mem_e {d : Decimal} {w f : List Char} (h : Pointed d w f) :
    'e' ∉ w ++ '.' :: f := by
  intro hm
  rcases List.mem_append.1 hm with hm | hm
  · exact h.whole_digits.not_mem rfl hm
  · rcases List.mem_cons.1 hm with hm | hm
    · cases hm
    · exact h.fraction_digits.not_mem rfl hm

/-- Decimals of the same text read back alike. -/
theorem ofDecimal_eq_of_magnitude_eq {d e : Decimal}
    (h : keyLayout.magnitude d = keyLayout.magnitude e) (negative : Bool) :
    Double.ofDecimal negative d.digits d.exponent =
      Double.ofDecimal negative e.digits e.exponent := by
  rcases magnitude_split d with ⟨w, f, hd, hp⟩ | ⟨m, hd, hp⟩ <;>
    rcases magnitude_split e with ⟨v, g, he, hq⟩ | ⟨n, he, hq⟩ <;> rw [hd, he] at h
  · obtain ⟨rfl, -, rfl⟩ := (List.append_cons_inj_of_notMem (hp.whole_digits.not_mem rfl)
      (hp.fraction_digits.not_mem rfl)).1 h
    rw [hp.ofDecimal_eq, hq.ofDecimal_eq]
  · exact absurd (h ▸ List.mem_append_right _ List.mem_cons_self) hp.not_mem_e
  · exact absurd (h ▸ List.mem_append_right _ List.mem_cons_self) hq.not_mem_e
  · obtain ⟨rfl, -, hpower⟩ := (List.append_cons_inj_of_notMem hp.not_mem_e
      (Number.not_mem_integerText rfl (by decide) _)).1 h
    have htext : d.text = e.text := hp.digits.symm.trans hq.digits
    have hexp := Number.integerText_inj hpower
    rw [toDigits_ten_inj htext, show d.exponent = e.exponent by rw [htext] at hexp; omega]

/-- Doubles other than the zeros have different key texts. -/
theorem write_inj {x y : Double} (hx : x.units ≠ 0) (hy : y.units ≠ 0)
    (h : keyLayout.write x = keyLayout.write y) : x = y := by
  have read := fun z hz => Double.ofDecimal_shortest (x := z) hz keyLayout.tiesUp
  -- a minus comes first or not at all
  have hsign : x.negative = y.negative ∧ keyLayout.magnitude (x.shortest keyLayout.tiesUp) =
      keyLayout.magnitude (y.shortest keyLayout.tiesUp) := by
    obtain ⟨c, t, hc, hdc⟩ := magnitude_head (x.shortest keyLayout.tiesUp)
    obtain ⟨e, u, he, hde⟩ := magnitude_head (y.shortest keyLayout.tiesUp)
    simp only [write, hc, he] at h ⊢
    cases hnx : x.negative <;> cases hny : y.negative <;> rw [hnx, hny] at h <;>
      simp only [Bool.false_eq_true, ↓reduceIte, List.cons.injEq] at h
    · exact ⟨rfl, by rw [h.1, h.2]⟩
    · rw [h.1] at hdc; cases hdc
    · rw [← h.1] at hde; cases hde
    · exact ⟨rfl, by rw [h.2.1, h.2.2]⟩
  apply Option.some.inj
  rw [← read x hx, ← read y hy, hsign.1]
  exact ofDecimal_eq_of_magnitude_eq hsign.2 _

end DecimalLayout

namespace Number

theorem keyText_of_toInt? {n : Number} {i : Int} (h : n.toInt? = some i) :
    n.keyText = integerText i := by
  cases n with
  | int j _ => rw [← Option.some.inj h]; rfl
  | float d => simp only [toInt?] at h; simp only [keyText, h]

theorem exists_float_of_toInt? {n : Number} (h : n.toInt? = none) :
    ∃ d, n = float d ∧ n.keyText = keyLayout.write d ∧ d.units ≠ 0 := by
  cases n with
  | int j _ => cases h
  | float d =>
    simp only [toInt?] at h
    refine ⟨d, rfl, by simp only [keyText, h], fun h0 => ?_⟩
    have : d.toInt? = some 0 :=
      Double.toInt?_eq_some.2 ⟨by rw [Double.value_eq_zero.2 h0, Int.zero_mul], by decide⟩
    rw [h] at this; cases this

/-- A text that is not an integer's has a point or an `e`. -/
theorem mem_write (x : Double) : '.' ∈ keyLayout.write x ∨ 'e' ∈ keyLayout.write x := by
  have hsub : ∀ c, c ∈ keyLayout.magnitude (x.shortest keyLayout.tiesUp) →
      c ∈ keyLayout.write x := by
    intro c hc
    simp only [DecimalLayout.write]
    split
    · exact List.mem_cons_of_mem _ hc
    · exact hc
  rcases DecimalLayout.magnitude_split (x.shortest keyLayout.tiesUp) with ⟨w, f, h, -⟩ | ⟨m, h, -⟩
  · exact .inl (hsub _ (h ▸ List.mem_append_right _ List.mem_cons_self))
  · exact .inr (hsub _ (h ▸ List.mem_append_right _ List.mem_cons_self))

theorem write_ne_integerText (x : Double) (i : Int) : keyLayout.write x ≠ integerText i := by
  intro h
  rcases mem_write x with hm | hm <;> rw [h] at hm
  · exact not_mem_integerText rfl (by decide) i hm
  · exact not_mem_integerText rfl (by decide) i hm

/-- Numbers share their key text exactly if they are equal. -/
theorem keyText_eq_iff {a b : Number} : a.keyText = b.keyText ↔ a.scaled = b.scaled := by
  cases ha : a.toInt? with
  | some i =>
    rw [keyText_of_toInt? ha]
    cases hb : b.toInt? with
    | some j =>
      rw [keyText_of_toInt? hb, (toInt?_eq_some.1 ha).1, (toInt?_eq_some.1 hb).1]
      constructor
      · intro h; rw [integerText_inj h]
      · intro h; rw [Int.eq_of_mul_eq_mul_right (by have := Double.one_pos; omega) h]
    | none =>
      obtain ⟨y, -, ht, -⟩ := exists_float_of_toInt? hb
      rw [ht]
      refine ⟨fun h => absurd h.symm (write_ne_integerText y i), fun h => ?_⟩
      rw [toInt?_congr h, hb] at ha; cases ha
  | none =>
    obtain ⟨x, rfl, htx, hx⟩ := exists_float_of_toInt? ha
    rw [htx]
    cases hb : b.toInt? with
    | some j =>
      rw [keyText_of_toInt? hb]
      refine ⟨fun h => absurd h (write_ne_integerText x j), fun h => ?_⟩
      rw [toInt?_congr h, hb] at ha; cases ha
    | none =>
      obtain ⟨y, rfl, hty, hy⟩ := exists_float_of_toInt? hb
      rw [hty]
      constructor
      · intro h; rw [DecimalLayout.write_inj hx hy h]
      · intro h; rw [Double.eq_of_value_eq h hx]

def isKeyChar (c : Char) : Bool := c.isDigit || c == '-' || c == '.' || c == 'e'

theorem magnitude_chars (d : Decimal) : ∀ c ∈ keyLayout.magnitude d, isKeyChar c = true := by
  have digit : ∀ {c : Char}, c.isDigit = true → isKeyChar c = true := by
    intro c hc; simp [isKeyChar, hc]
  intro c hc
  rcases DecimalLayout.magnitude_split d with ⟨w, f, h, hp⟩ | ⟨m, h, hp⟩ <;> rw [h] at hc <;>
    rcases List.mem_append.1 hc with hc | hc
  · exact digit (hp.whole_digits c hc)
  · rcases List.mem_cons.1 hc with rfl | hc
    · rfl
    · exact digit (hp.fraction_digits c hc)
  · rcases hp.chars c hc with hc | rfl
    · exact digit hc
    · rfl
  · rcases List.mem_cons.1 hc with rfl | hc
    · rfl
    · rcases integerText_chars hc with hc | rfl
      · exact digit hc
      · rfl

theorem keyText_chars (n : Number) : ∀ c ∈ n.keyText, isKeyChar c = true := by
  intro c hc
  cases h : n.toInt? with
  | some i =>
    rw [keyText_of_toInt? h] at hc
    rcases integerText_chars hc with hc | rfl
    · simp [isKeyChar, hc]
    · rfl
  | none =>
    obtain ⟨x, -, ht, -⟩ := exists_float_of_toInt? h
    rw [ht] at hc
    simp only [DecimalLayout.write] at hc
    split at hc
    · rcases List.mem_cons.1 hc with rfl | hc
      · rfl
      · exact magnitude_chars _ c hc
    · exact magnitude_chars _ c hc

theorem keyText_head (n : Number) :
    ∃ c t, n.keyText = c :: t ∧ (c.isDigit = true ∨ c = '-') := by
  cases h : n.toInt? with
  | some i =>
    rw [keyText_of_toInt? h]
    rcases integerText_cases i with ⟨-, e⟩ | ⟨-, e⟩
    · exact ⟨_, _, e, .inr rfl⟩
    · obtain ⟨c, t, hc⟩ := List.exists_cons_of_ne_nil
        (Nat.toDigits_ne_nil (n := i.natAbs) (b := 10))
      exact ⟨c, t, e.trans hc, .inl (DigitsOnly.toDigits i.natAbs c (hc ▸ List.mem_cons_self))⟩
  | none =>
    obtain ⟨x, -, ht, -⟩ := exists_float_of_toInt? h
    obtain ⟨c, t, hc, hd⟩ := DecimalLayout.magnitude_head (x.shortest keyLayout.tiesUp)
    rw [ht]
    simp only [DecimalLayout.write]
    split
    · exact ⟨_, _, rfl, .inr rfl⟩
    · exact ⟨c, t, hc, .inl hd⟩

end Number

end JsonRules
