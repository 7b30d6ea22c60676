import JsonRules.Proofs.Pattern.Linear.Chars
import JsonRules.Proofs.Pattern.Scanned

/-!
# Tokens lie within the code points

Whatever the scanner reads a number from, a token holds no number above the largest code point: four
digits cannot spell one, braces are given up where they would, and a pair of surrogates is joined
below it.
-/

namespace JsonRules.Pattern

open Unicode (maxCode)

variable {c : Char} {cs rest : List Char}

section Codes

variable {code : Nat}

theorem bracedHex?_le {digits : Nat} {r : Nat × List Char}
    (hcode : code ≤ maxCode) (h : bracedHex? digits code cs = some r) : r.1 ≤ maxCode := by
  induction cs generalizing digits code with
  | nil => cases h
  | cons c cs ih =>
    rw [bracedHex?] at h
    split at h
    · split at h
      · cases h
        exact hcode
      · cases h
    · obtain ⟨d, -, h⟩ := Option.bind_eq_some_iff.1 h
      split at h
      · cases h
      · next hle =>
        obtain ⟨_, -, h⟩ := Option.bind_eq_some_iff.1 h
        exact ih (Nat.le_of_not_lt hle) h

theorem UnicodeReads.le (h : UnicodeReads cs code rest) : code ≤ maxCode := by
  cases h with
  | braced read => exact bracedHex?_le (Nat.zero_le _) read
  | unit four => exact hexValue_le (Nat.le_of_eq four)
  | pair _ _ isHigh isLow => exact joinSurrogates_le isHigh isLow

theorem controlEscape?_lt (h : controlEscape? c = some code) : code < 32 := by
  unfold controlEscape? at h
  split at h <;> cases h <;> decide

theorem CodeReads.le (h : CodeReads c cs code rest) : code ≤ maxCode := by
  cases h with
  | control known => exact Nat.le_trans (Nat.le_of_lt (controlEscape?_lt known)) (by decide)
  | null => exact Nat.zero_le _
  | letter => exact Nat.le_trans (Nat.le_of_lt (Nat.mod_lt _ (by decide))) (by decide)
  | backslash => exact (by decide : 0x5C ≤ maxCode)
  | byte two => exact hexValue_le (two ▸ by decide)
  | unicode read => exact read.le
  | identity => exact toNat_le_maxCode c

end Codes

section Tokens

def ClassAtom.IsBounded (a : ClassAtom) : Prop := (ClassItem.ofAtom a).IsBounded

theorem AtomReads.isBounded {a : ClassAtom} (h : AtomReads c cs a rest) : a.IsBounded := by
  cases h with
  | dash => trivial
  | @set _ _ named negated => exact bounded_codes named negated
  | backspace => exact (by decide : 0x08 ≤ maxCode)
  | property => trivial
  | code _ _ _ read => exact read.le
  | raw => exact toNat_le_maxCode c

theorem AtomsRead.isBounded {atoms : List ClassAtom} (h : AtomsRead cs atoms rest) :
    ∀ a ∈ atoms, a.IsBounded := by
  induction h with
  | close => exact List.forall_mem_nil _
  | cons _ first _ ih => exact List.forall_mem_cons.2 ⟨first.isBounded, ih⟩

theorem endpoint?_le {a : ClassAtom} (ha : a.IsBounded) {code : Nat} (h : a.endpoint? = some code) :
    code ≤ maxCode := by
  cases a with
  | code n =>
    cases h
    exact ha
  | dash =>
    cases h
    decide
  | set => cases h
  | property => cases h

theorem JoinedFrom.isBounded {atoms : List ClassAtom} {item : ClassItem}
    (h : JoinedFrom atoms item) (hatoms : ∀ a ∈ atoms, a.IsBounded) : item.IsBounded := by
  cases h with
  | atom mem => exact hatoms _ mem
  | range _ memLast _ last => exact endpoint?_le (hatoms _ memLast) last

/-- The numbers in the token are code points, and that of a reference is not zero. -/
def Token.IsBounded : Token → Prop
  | code n => n ≤ maxCode
  | charClass _ items => ∀ i ∈ items, i.IsBounded
  | backref digits => ∃ d more, digits = d :: more ∧ '1' ≤ d ∧ d ≤ '9'
  | _ => True

theorem EscapeReads.isBounded {t : Token} (h : EscapeReads cs t rest) : t.IsBounded := by
  cases h with
  | backref isDigit => exact ⟨_, _, rfl, isDigit⟩
  | code _ _ _ _ _ read => exact read.le
  | _ => trivial

theorem TokenReads.isBounded {t : Token} (h : TokenReads c cs t rest) : t.IsBounded := by
  cases h with
  | escape read => exact read.isBounded
  | charClass read =>
    cases read with
    | intro _ read joined =>
      exact fun item hitem => (joinedFrom_of_mem joined hitem).isBounded read.isBounded
  | _ => trivial

theorem isBounded_of_scan {ts : List Token} (h : Token.scan cs = .ok ts) :
    ∀ t ∈ ts, t.IsBounded := by
  rw [scan_eq_ok] at h
  induction h with
  | nil => exact List.forall_mem_nil _
  | cons first _ ih => exact List.forall_mem_cons.2 ⟨first.isBounded, ih⟩

end Tokens

end JsonRules.Pattern
