/-!
# Words of 32 bits

Sums, differences and products of numbers that are kept in 32 bits, and counting in a word that has
a sign. There is no result where it does not fit.
-/

namespace JsonRules.Word

/-- How many numbers there are. -/
def size : Nat := 0x100000000

def add? (a b : Nat) : Option Nat := if a + b < size then some (a + b) else none

def mul? (a b : Nat) : Option Nat := if a * b < size then some (a * b) else none

def sub? (a b : Nat) : Option Nat := if b ≤ a then some (a - b) else none

/-- What a word with a sign does not count up to. -/
def countLimit : Nat := 0x80000000

/-- The next number in a word that has a sign. -/
def count? (n : Nat) : Option Nat := if n + 1 < countLimit then some (n + 1) else none

theorem add?_of_lt {a b : Nat} (h : a + b < 0x100000000) : add? a b = some (a + b) := if_pos h

theorem mul?_of_lt {a b : Nat} (h : a * b < 0x100000000) : mul? a b = some (a * b) := if_pos h

theorem sub?_of_le {a b : Nat} (h : b ≤ a) : sub? a b = some (a - b) := if_pos h

theorem count?_of_lt {n : Nat} (h : n + 1 < countLimit) : count? n = some (n + 1) := if_pos h

theorem count?_eq_some {n m : Nat} : count? n = some m ↔ m = n + 1 ∧ m < countLimit := by
  rw [count?, Option.ite_none_right_eq_some, Option.some.injEq]
  constructor
  · rintro ⟨hlt, rfl⟩
    exact ⟨rfl, hlt⟩
  · rintro ⟨rfl, hlt⟩
    exact ⟨hlt, rfl⟩

theorem count?_eq_none {n : Nat} : count? n = none ↔ countLimit ≤ n + 1 := by
  unfold count?
  split <;> simp <;> omega

end JsonRules.Word
