import JsonRules.Text.Quoted

/-!
# Quoted text is delimited by itself

A quoted text followed by anything is split in one way: the spellings of two characters never
begin alike unless the characters are the same, and none begins with the closing quote.
-/

namespace JsonRules.Text

/-- A text is split in one way at the first place of a character. -/
theorem append_cons_inj {c : Char} {l m r s : List Char} (hl : c ∉ l) (hm : c ∉ m)
    (h : l ++ c :: r = m ++ c :: s) : l = m ∧ r = s := by
  rcases List.append_eq_append_iff.1 h with ⟨a, rfl, ha⟩ | ⟨a, rfl, ha⟩ <;>
    rcases List.cons_eq_append_iff.1 ha with ⟨rfl, ha⟩ | ⟨b, rfl, -⟩
  · exact ⟨(List.append_nil l).symm, (List.cons.inj ha).2⟩
  · exact absurd (List.mem_append_right _ List.mem_cons_self) hm
  · exact ⟨List.append_nil m, (List.cons.inj ha).2.symm⟩
  · exact absurd (List.mem_append_right _ List.mem_cons_self) hl

theorem digitChar_inj : ∀ m < 16, ∀ n < 16, Nat.digitChar m = Nat.digitChar n → m = n := by decide

theorem toDigits_inj {b : Nat} (hb : 1 < b) (h16 : b ≤ 16) {m n : Nat}
    (h : Nat.toDigits b m = Nat.toDigits b n) : m = n := by
  induction m using Nat.strongRecOn generalizing n with
  | ind m ih =>
    rw [Nat.toDigits_eq_if hb (n := m), Nat.toDigits_eq_if hb (n := n)] at h
    split at h <;> split at h
    · exact digitChar_inj m (by omega) n (by omega) (List.cons.inj h).1
    · exact absurd (List.append_eq_singleton_iff.1 h.symm) (by simp)
    · exact absurd (List.append_eq_singleton_iff.1 h) (by simp)
    · next hm hn =>
      obtain ⟨hd, hl⟩ := List.append_inj' h rfl
      have hlt := fun k => Nat.lt_of_lt_of_le (Nat.mod_lt k (show 0 < b by omega)) h16
      have hquot := ih (m / b) (Nat.div_lt_self (by omega) hb) hd
      have hrem := digitChar_inj _ (hlt m) _ (hlt n) (List.cons.inj hl).1
      rw [← Nat.div_add_mod m b, ← Nat.div_add_mod n b, hquot, hrem]

theorem mem_toDigits {b : Nat} (hb : 1 < b) {n : Nat} {c : Char} (h : c ∈ Nat.toDigits b n) :
    ∃ k < b, c = Nat.digitChar k := by
  induction n using Nat.strongRecOn with
  | ind n ih =>
    rw [Nat.toDigits_eq_if hb] at h
    split at h
    · next hlt => exact ⟨n, hlt, List.mem_singleton.1 h⟩
    · rcases List.mem_append.1 h with h | h
      · exact ih (n / b) (Nat.div_lt_self (by omega) hb) h
      · exact ⟨_, Nat.mod_lt n (by omega), List.mem_singleton.1 h⟩

theorem brace_not_mem_hex (n : Nat) : '}' ∉ hex n := by
  intro h
  obtain ⟨k, -, hk⟩ := mem_toDigits (by decide) h
  exact Nat.digitChar_ne '}' (by decide) hk.symm

def unescaped (c : Char) : Char :=
  if c = 'n' then '\n' else if c = 'r' then '\r' else if c = 't' then '\t'
  else if c = '0' then '\x00' else c

/-- The three kinds of spelling of a character in a key. -/
theorem keyChar_cases (c : Char) :
    (∃ x, keyChar c = ['\\', x] ∧ x ≠ 'u' ∧ unescaped x = c) ∨
      keyChar c = '\\' :: 'u' :: '{' :: (hex c.toNat ++ ['}']) ∨
      keyChar c = [c] ∧ c ≠ '\\' ∧ c ≠ '"' := by
  unfold keyChar
  split
  · next h => exact .inl ⟨'"', rfl, by decide, h.symm⟩
  split
  · next h => exact .inl ⟨'\\', rfl, by decide, h.symm⟩
  split
  · next h => exact .inl ⟨'n', rfl, by decide, h ▸ rfl⟩
  split
  · next h => exact .inl ⟨'r', rfl, by decide, h ▸ rfl⟩
  split
  · next h => exact .inl ⟨'t', rfl, by decide, h ▸ rfl⟩
  split
  · next h => exact .inl ⟨'0', rfl, by decide, h ▸ rfl⟩
  split
  · exact .inr (.inl rfl)
  · next hq hs _ _ _ _ _ => exact .inr (.inr ⟨rfl, hs, hq⟩)

/-- Spellings of characters are prefix-free. -/
theorem keyChar_append_inj {c d : Char} {r s : List Char} (h : keyChar c ++ r = keyChar d ++ s) :
    c = d ∧ r = s := by
  rcases keyChar_cases c with ⟨x, hc, hx, rfl⟩ | hc | ⟨hc, hb, -⟩ <;>
    rcases keyChar_cases d with ⟨y, hd, hy, rfl⟩ | hd | ⟨hd, hb', -⟩ <;> rw [hc, hd] at h <;>
    simp only [List.cons_append, List.nil_append, List.cons.injEq, List.append_assoc] at h
  · exact ⟨by rw [h.2.1], h.2.2⟩
  · exact absurd h.2.1 hx
  · exact absurd h.1.symm hb'
  · exact absurd h.2.1.symm hy
  · obtain ⟨hh, hr⟩ := append_cons_inj (brace_not_mem_hex _) (brace_not_mem_hex _) h.2.2.2
    exact ⟨Char.toNat_inj.1 (toDigits_inj (by decide) (by decide) hh), hr⟩
  · exact absurd h.1.symm hb'
  · exact absurd h.1 hb
  · exact absurd h.1 hb
  · exact h

theorem keyChar_append_ne_quote (c : Char) (r s : List Char) : keyChar c ++ r ≠ '"' :: s := by
  intro h
  rcases keyChar_cases c with ⟨x, hc, -, -⟩ | hc | ⟨hc, -, hq⟩ <;> rw [hc] at h <;>
    simp only [List.cons_append, List.nil_append, List.cons.injEq] at h
  · exact absurd h.1 (by decide)
  · exact absurd h.1 (by decide)
  · exact hq h.1

theorem flatMap_keyChar_inj {cs ds r s : List Char}
    (h : cs.flatMap keyChar ++ '"' :: r = ds.flatMap keyChar ++ '"' :: s) : cs = ds ∧ r = s := by
  induction cs generalizing ds with
  | nil =>
    cases ds with
    | nil => exact ⟨rfl, (List.cons.inj h).2⟩
    | cons d ds =>
      rw [List.flatMap_cons, List.append_assoc] at h
      exact absurd h.symm (keyChar_append_ne_quote _ _ _)
  | cons c cs ih =>
    cases ds with
    | nil =>
      rw [List.flatMap_cons, List.append_assoc] at h
      exact absurd h (keyChar_append_ne_quote _ _ _)
    | cons d ds =>
      rw [List.flatMap_cons, List.flatMap_cons, List.append_assoc, List.append_assoc] at h
      obtain ⟨rfl, hrest⟩ := keyChar_append_inj h
      obtain ⟨rfl, hend⟩ := ih hrest
      exact ⟨rfl, hend⟩

/-- Quoted text is delimited by itself. -/
theorem quote_keyChar_append_inj {a b : String} {r s : List Char}
    (h : quote keyChar a ++ r = quote keyChar b ++ s) : a = b ∧ r = s := by
  unfold quote at h
  simp only [List.cons_append, List.append_assoc, List.cons.injEq, true_and, List.nil_append] at h
  obtain ⟨hl, hr⟩ := flatMap_keyChar_inj h
  exact ⟨String.toList_injective hl, hr⟩

end JsonRules.Text
