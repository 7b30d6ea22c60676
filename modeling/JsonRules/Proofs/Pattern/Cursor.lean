import JsonRules.Pattern.Cursor
import JsonRules.Proofs.Pattern.Linear.Chars
import JsonRules.Proofs.Pattern.Scan

/-!
# Reading by position ends

Read by position, a pattern gives what it gives when its rest is handed on: the position is always
that of the rest. `Follows` relates the results of the two ways of reading, one lemma for each
reader. Hence no position leaves the text, and every turn of a loop moves on, whatever it moves back
by on its way. No number overflows but the count of the digits in braces, and that only where `2^31`
digits stand one after the other.
-/

namespace JsonRules.Pattern.Cursor

open Unicode (maxCode)
open Text (hexDigit?)

structure At (chars : List Char) (pos : Nat) (rest : List Char) : Prop where
  le : pos ≤ chars.length
  drop_eq : chars.drop pos = rest

variable {chars cs rest : List Char} {pos : Nat} {c : Char}

section At

theorem at_start (chars : List Char) : At chars 0 chars := ⟨Nat.zero_le _, rfl⟩

theorem at_drop (h : pos ≤ chars.length) : At chars pos (chars.drop pos) := ⟨h, rfl⟩

theorem At.length (h : At chars pos rest) : pos + rest.length = chars.length := by
  have hle := h.le
  rw [← h.drop_eq, List.length_drop]
  omega

theorem At.getElem? (h : At chars pos rest) : chars[pos]? = rest.head? := by
  rw [← h.drop_eq, List.head?_drop]

theorem At.next (h : At chars pos (c :: rest)) : At chars (pos + 1) rest := by
  have hlength := h.length
  rw [List.length_cons] at hlength
  refine ⟨by omega, ?_⟩
  rw [← List.tail_drop, h.drop_eq, List.tail_cons]

/-- A later rest stands further on. -/
theorem At.lt {after : Nat} (h : At chars pos cs) (h' : At chars after rest)
    (shorter : rest.length < cs.length) : pos < after := by
  have hlength := h.length
  have hlength' := h'.length
  omega

theorem At.lt_turns (h : At chars pos rest) : rest.length < turns chars := by
  have hlength := h.length
  unfold turns
  omega

end At

theorem ok_bind {ε α β : Type} (a : α) (f : α → Except ε β) : (Except.ok a >>= f) = f a := rfl

theorem ok_map {ε α β : Type} (a : α) (f : α → β) : (Except.ok a : Except ε α).map f = .ok (f a) :=
  rfl

section Moves

theorem moveTo_eq (h : At chars pos rest) : moveTo chars pos = .ok pos := if_pos h.le

theorem next_cons (h : At chars pos (c :: rest)) : next chars pos = .ok (some c, pos + 1) := by
  rw [next, h.getElem?, List.head?_cons]
  simp only [moveTo_eq h.next, ok_map]

theorem next_nil (h : At chars pos []) : next chars pos = .ok (none, pos) := by
  rw [next, h.getElem?, List.head?_nil]

theorem eat_cons (h : At chars pos (c :: rest)) : eat chars c pos = .ok (true, pos + 1) := by
  rw [eat, h.getElem?, List.head?_cons, if_pos rfl, moveTo_eq h.next, ok_map]

theorem eat_other (h : At chars pos rest) (hne : rest.head? ≠ some c) :
    eat chars c pos = .ok (false, pos) := by
  rw [eat, h.getElem?, if_neg hne]

/-- Where a character has been moved over, there is one to move back over. -/
theorem back_eq (h : At chars pos (c :: rest)) : back chars (pos + 1) = .ok pos := moveTo_eq h

end Moves

/-- Reading by position stops where reading the rest has an error. -/
inductive Fails (chars : List Char) : Stop → PatternError → Prop
  | refused (e : PatternError) : Fails chars (.refused e) e
  | overflow (many : Uncounted chars) : Fails chars .overflow (.invalidEscape 'u')

theorem Fails.cases {stop : Stop} {e : PatternError} (h : Fails chars stop e) :
    (∃ e, stop = .refused e) ∨ (stop = .overflow ∧ Uncounted chars) := by
  cases h with
  | refused => exact .inl ⟨e, rfl⟩
  | overflow many => exact .inr ⟨rfl, many⟩

/-- Reading by position gives what reading the rest gives, and ends where what is left begins. -/
inductive Follows {α : Type} (chars : List Char) :
    Except Stop (α × Nat) → Except PatternError (α × List Char) → Prop
  | ok {a : α} {pos : Nat} {rest : List Char} (h : At chars pos rest) :
      Follows chars (.ok (a, pos)) (.ok (a, rest))
  | error {stop : Stop} {e : PatternError} (fails : Fails chars stop e) :
      Follows chars (.error stop) (.error e)

theorem Follows.refused {α : Type} (e : PatternError) :
    Follows chars (.error (.refused e) : Except Stop (α × Nat)) (.error e) := .error (.refused e)

theorem Follows.map {α β : Type} {x : Except Stop (α × Nat)}
    {y : Except PatternError (α × List Char)} (h : Follows chars x y) (f : α → β) :
    Follows chars (x.map fun r => (f r.1, r.2)) (y.map fun r => (f r.1, r.2)) := by
  cases h with
  | ok h => exact .ok h
  | error fails => exact .error fails

/-- Reading by position finds what reading the rest finds, and ends in the text if it finds
nothing. -/
inductive Tries {α : Type} (chars : List Char) :
    Except Stop (Option α × Nat) → Option (α × List Char) → Prop
  | some {a : α} {pos : Nat} {rest : List Char} (h : At chars pos rest) :
      Tries chars (.ok (some a, pos)) (some (a, rest))
  | none {pos : Nat} (h : pos ≤ chars.length) : Tries chars (.ok (none, pos)) none

section Numbers

/-- The numbers that `n` more digits do not bring to four digits or more are below this. -/
def room : Nat → Nat
  | 0 => 0x10000
  | n + 1 => room n / 16

theorem room_le (n : Nat) : room n ≤ 0x10000 := by
  induction n with
  | zero => exact Nat.le_refl _
  | succ n ih => exact Nat.le_trans (Nat.div_le_self _ _) ih

theorem tries_hex {n code : Nat} (hcode : code < room n) (h : At chars pos cs) :
    Tries chars (hex chars n code pos) (hex? n code cs) := by
  induction n generalizing code pos cs with
  | zero => exact .some h
  | succ n ih =>
    cases cs with
    | nil =>
      simp only [hex, next_nil h, ok_bind, Option.bind_none]
      exact .none h.le
    | cons c cs =>
      simp only [hex, next_cons h, ok_bind, Option.bind_some, hex?]
      cases hdigit : hexDigit? c with
      | none => exact .none h.next.le
      | some d =>
        have hd := hexDigit?_lt hdigit
        have hroom := room_le n
        have hnext : code * 16 + d < room n := by
          rw [room] at hcode
          omega
        simp only [Word.mul?_of_lt (show code * 16 < 0x100000000 by omega),
          Word.add?_of_lt (show code * 16 + d < 0x100000000 by omega), fitting, ok_bind]
        exact ih hnext h.next

section Braces

variable {start count code : Nat}

theorem DigitsFrom.zero (chars : List Char) (start : Nat) : DigitsFrom chars start 0 :=
  fun i hi => absurd hi (Nat.not_lt_zero i)

theorem DigitsFrom.succ (h : DigitsFrom chars start count) (hc : chars[start + count]? = some c)
    (hdigit : (hexDigit? c).isSome = true) : DigitsFrom chars start (count + 1) := by
  intro i hi
  by_cases hlast : i = count
  · subst hlast
    exact ⟨c, hc, hdigit⟩
  · exact h i (by omega)

theorem DigitsFrom.mono (h : DigitsFrom chars start count) {fewer : Nat} (hle : fewer ≤ count) :
    DigitsFrom chars start fewer := fun i hi => h i (Nat.lt_of_lt_of_le hi hle)

theorem of_shifted {value : Nat} (h : (Word.mul? code 16).bind
    (fun scaled => (hexDigit? c).bind (Word.add? scaled)) = some value) :
    (hexDigit? c).isSome = true ∧ code ≤ value := by
  obtain ⟨scaled, hscaled, h⟩ := Option.bind_eq_some_iff.1 h
  obtain ⟨d, hd, h⟩ := Option.bind_eq_some_iff.1 h
  rw [hd]
  unfold Word.mul? at hscaled
  unfold Word.add? at h
  split at hscaled <;> cases hscaled
  split at h <;> cases h
  exact ⟨rfl, by omega⟩

/-- The digits in braces are read to an end, which is in the text, unless there are more of them
than can be counted. The number does not get smaller. -/
inductive Ends (chars : List Char) (start code : Nat) :
    Except Stop ((Option Nat × Nat) × Nat) → Prop
  | ends {code? : Option Nat} {count after : Nat} (counted : count < Word.countLimit)
      (behind : start + count ≤ after) (within : after ≤ chars.length)
      (grows : ∀ value, code? = some value → code ≤ value) :
      Ends chars start code (.ok ((code?, count), after))
  | overflow (many : DigitsFrom chars start Word.countLimit) :
      Ends chars start code (.error .overflow)

theorem Ends.of_le {less : Nat} {x : Except Stop ((Option Nat × Nat) × Nat)}
    (h : Ends chars start code x) (hle : less ≤ code) : Ends chars start less x := by
  cases h with
  | ends counted behind within grows =>
    exact .ends counted behind within fun value hvalue => Nat.le_trans hle (grows value hvalue)
  | overflow many => exact .overflow many

/-- Before each turn, `count` digits have been read since the opening brace. -/
theorem bracedHex_ends {bound : Nat} (hbound : cs.length < bound)
    (hdigits : DigitsFrom chars start count) (hcount : count < Word.countLimit)
    (h : At chars (start + count) cs) :
    Ends chars start code (bracedHex chars bound code count (start + count)) := by
  induction bound generalizing code count cs with
  | zero => omega
  | succ bound ih =>
    cases cs with
    | nil =>
      simp only [bracedHex, next_nil h, ok_bind]
      exact .ends hcount (Nat.le_refl _) h.le nofun
    | cons c cs =>
      rw [List.length_cons] at hbound
      simp only [bracedHex, next_cons h, ok_bind]
      split
      · exact .ends hcount (Nat.le_succ _) h.next.le fun value hvalue =>
          Nat.le_of_eq (Option.some.inj hvalue)
      split
      · exact .ends hcount (Nat.le_succ _) h.next.le nofun
      next value hvalue =>
      obtain ⟨hdigit, hle⟩ := of_shifted hvalue
      have hmore := hdigits.succ (h.getElem?.trans List.head?_cons) hdigit
      cases hnext : Word.count? count with
      | none => exact .overflow (hmore.mono (Word.count?_eq_none.1 hnext))
      | some next =>
        obtain ⟨rfl, hlt⟩ := Word.count?_eq_some.1 hnext
        exact (ih (by omega) hmore hlt h.next).of_le hle

/-- Once the digits spell too large a number, they spell no code point. -/
theorem Ends.follows {x : Except Stop ((Option Nat × Nat) × Nat)} (h : Ends chars start code x)
    (hcode : maxCode < code) : Follows chars (x >>= spelled) (.error (.invalidEscape 'u')) := by
  cases h with
  | @ends code? count after counted behind within grows =>
    have hnone : code?.filter (· ≤ maxCode) = none := by
      rw [Option.filter_eq_none_iff]
      intro value hvalue hsmall
      have hle := grows value hvalue
      have hsmall := of_decide_eq_true hsmall
      omega
    rw [ok_bind, spelled, hnone]
    exact .refused _
  | overflow many => exact .error (.overflow ⟨start, many⟩)

/-- The code point that the rest of the text begins with, in hexadecimal digits up to a brace. -/
def bracedRest (count code : Nat) (cs : List Char) : Except PatternError (Nat × List Char) :=
  (bracedHex? count code cs).elim (.error (.invalidEscape 'u')) .ok

theorem follows_bracedHex {bound : Nat} (hbound : cs.length < bound)
    (hdigits : DigitsFrom chars start count) (hcount : count < Word.countLimit)
    (hcode : code ≤ maxCode) (h : At chars (start + count) cs) :
    Follows chars (bracedHex chars bound code count (start + count) >>= spelled)
      (bracedRest count code cs) := by
  induction bound generalizing code count cs with
  | zero => omega
  | succ bound ih =>
    unfold bracedRest
    cases cs with
    | nil =>
      simp only [bracedHex, next_nil h, ok_bind, bracedHex?]
      exact .refused _
    | cons c cs =>
      rw [List.length_cons] at hbound
      simp only [bracedHex, next_cons h, ok_bind, bracedHex?]
      have hscaled : code * 16 + 15 < 0x100000000 := by
        unfold maxCode at hcode
        omega
      rw [Word.mul?_of_lt (by omega), Option.bind_some]
      by_cases hclose : c = '}'
      · subst hclose
        by_cases hsome : 0 < count
        · have hkeep : (some code).filter (· ≤ maxCode) = some code :=
            if_pos (decide_eq_true hcode)
          rw [if_pos ⟨rfl, hsome⟩, if_pos rfl, if_pos hsome, ok_bind, spelled, hkeep]
          exact .ok h.next
        · rw [if_neg fun hboth => hsome hboth.2, if_pos rfl, if_neg hsome]
          exact .refused _
      · rw [if_neg fun hboth => hclose hboth.1, if_neg hclose]
        cases hdigit : hexDigit? c with
        | none => exact .refused _
        | some d =>
          have hd := hexDigit?_lt hdigit
          have hmore := hdigits.succ (h.getElem?.trans List.head?_cons) (by rw [hdigit]; rfl)
          simp only [Option.bind_some, Word.add?_of_lt (show code * 16 + d < 0x100000000 by omega)]
          cases hnext : Word.count? count with
          | none =>
            have hmany := hmore.mono (Word.count?_eq_none.1 hnext)
            split <;> exact .error (.overflow ⟨start, hmany⟩)
          | some next =>
            obtain ⟨rfl, hlt⟩ := Word.count?_eq_some.1 hnext
            split
            · next hlarge =>
              -- what is above the largest code point stays above it
              exact (bracedHex_ends (by omega) hmore hlt h.next).follows hlarge
            · next hsmall => exact ih (by omega) hmore hlt (Nat.le_of_not_lt hsmall) h.next

end Braces

/-- A surrogate pair is joined without overflow, to a code point that two bytes do not hold. -/
theorem joinSurrogates?_eq {high low : Nat} (isHigh : isHighSurrogate high = true)
    (isLow : isLowSurrogate low = true) :
    joinSurrogates? high low = some (joinSurrogates high low) ∧
      0x10000 ≤ joinSurrogates high low ∧ joinSurrogates high low ≤ maxCode := by
  have hle := joinSurrogates_le isHigh isLow
  simp only [isHighSurrogate, isLowSurrogate, Bool.and_eq_true, decide_eq_true_iff] at isHigh isLow
  have hupper : Word.mul? (high - 0xD800) 0x400 = some ((high - 0xD800) * 0x400) :=
    Word.mul?_of_lt (by omega)
  have hfirst : Word.add? 0x10000 ((high - 0xD800) * 0x400) =
      some (0x10000 + (high - 0xD800) * 0x400) :=
    Word.add?_of_lt (by omega)
  have hlast : Word.add? (0x10000 + (high - 0xD800) * 0x400) (low - 0xDC00) =
      some (0x10000 + (high - 0xD800) * 0x400 + (low - 0xDC00)) :=
    Word.add?_of_lt (by omega)
  refine ⟨?_, ?_, hle⟩
  · unfold joinSurrogates? joinSurrogates
    simp only [Option.bind_eq_bind]
    rw [Word.sub?_of_le isHigh.1, Word.sub?_of_le isLow.1, Option.bind_some, hupper,
      Option.bind_some, hfirst, Option.bind_some, Option.bind_some, hlast]
  · unfold joinSurrogates
    omega

end Numbers

section Escapes

theorem lowEscape?_eq_none (h : ¬ ∃ more, cs = '\\' :: 'u' :: more) : lowEscape? cs = none := by
  unfold lowEscape?
  split
  · exact absurd ⟨_, rfl⟩ h
  · rfl

theorem follows_bracedEscape (h : At chars pos cs) :
    Follows chars (bracedEscape chars pos) (bracedRest 0 0 cs) :=
  follows_bracedHex h.lt_turns (.zero chars pos) (by decide) (Nat.zero_le maxCode) h

theorem follows_unicodeEscape (h : At chars pos cs) :
    Follows chars (unicodeEscape chars pos) (Pattern.unicodeEscape cs) := by
  unfold Pattern.unicodeEscape
  split
  · next cs =>
    have hbraced := follows_bracedEscape h.next
    simp only [unicodeEscape, eat_cons h, ok_bind, if_true]
    unfold bracedRest at hbraced
    cases hread : bracedHex? 0 0 cs with
    | none => rw [hread] at hbraced; exact hbraced
    | some r => rw [hread] at hbraced; exact hbraced
  next hopen =>
  have hbrace : cs.head? ≠ some '{' := by
    intro hhead
    obtain ⟨more, rfl⟩ := List.head?_eq_some_iff.1 hhead
    exact hopen more rfl
  have hhex := tries_hex (show 0 < room 4 by decide) h
  simp only [unicodeEscape, eat_other h hbrace, ok_bind, Bool.false_eq_true, if_false]
  generalize hex chars 4 0 pos = read at hhex ⊢
  generalize hex? 4 0 cs = found at hhex ⊢
  cases hhex with
  | none => exact .refused _
  | @some high pos rest hrest =>
    simp only [ok_bind]
    by_cases hHigh : isHighSurrogate high = true
    · rw [if_pos hHigh]
      by_cases hpair : ∃ more, rest = '\\' :: 'u' :: more
      · obtain ⟨more, rfl⟩ := hpair
        have hsecond : chars[pos + 1]? = some 'u' := hrest.next.getElem?
        have hhalf := tries_hex (show 0 < room 4 by decide) hrest.next.next
        rw [if_pos ⟨hHigh, hrest.getElem?, hsecond⟩, moveTo_eq hrest.next.next, ok_bind, lowEscape?]
        generalize hex chars 4 0 (pos + 2) = read at hhalf ⊢
        generalize hex? 4 0 more = found at hhalf ⊢
        cases hhalf with
        | none =>
          simp only [ok_bind, Option.filter_none, moveTo_eq hrest, ok_map]
          exact .ok hrest
        | @some low after rest hafter =>
          simp only [ok_bind]
          by_cases hLow : isLowSurrogate low = true
          · have hkeep : (some low).filter isLowSurrogate = some low := if_pos hLow
            simp only [hkeep, if_pos hLow, (joinSurrogates?_eq hHigh hLow).1, fitting, ok_map]
            exact .ok hafter
          · have hdrop : (some low).filter isLowSurrogate = none := if_neg hLow
            simp only [hdrop, if_neg hLow, moveTo_eq hrest, ok_map]
            exact .ok hrest
      · rw [lowEscape?_eq_none hpair, if_neg fun hall => hpair ?_]
        · exact .ok hrest
        · obtain ⟨-, hfirst, hsecond⟩ := hall
          rw [hrest.getElem?, List.head?_eq_some_iff] at hfirst
          obtain ⟨tail, rfl⟩ := hfirst
          rw [hrest.next.getElem?, List.head?_eq_some_iff] at hsecond
          obtain ⟨more, rfl⟩ := hsecond
          exact ⟨more, rfl⟩
    · rw [if_neg fun hall => hHigh hall.1, if_neg hHigh]
      exact .ok hrest

/-- An escape for a code point is read from its letter on, over which it may move back. -/
theorem follows_codeEscape (h : At chars pos (c :: cs)) :
    Follows chars (codeEscape chars c (pos + 1)) (Pattern.codeEscape c cs) := by
  unfold codeEscape Pattern.codeEscape
  rw [h.next.getElem?]
  cases controlEscape? c with
  | some code => exact .ok h.next
  | none =>
    simp only
    split
    · exact .ok h.next
    split
    · next hletter =>
      subst hletter
      cases cs with
      | nil =>
        simp only [List.head?_nil, Option.filter_none, back_eq h, ok_map, letterEscape]
        exact .ok h
      | cons letter cs =>
        rw [List.head?_cons, letterEscape]
        by_cases hletter : letter.isAlpha = true
        · have hkeep : (some letter).filter Char.isAlpha = some letter := if_pos hletter
          simp only [hkeep, if_pos hletter, moveTo_eq h.next.next, ok_map]
          exact .ok h.next.next
        · have hdrop : (some letter).filter Char.isAlpha = none := if_neg hletter
          simp only [hdrop, if_neg hletter, back_eq h, ok_map]
          exact .ok h
    split
    · have hhex := tries_hex (show 0 < room 2 by decide) h.next
      generalize hex chars 2 0 (pos + 1) = read at hhex ⊢
      generalize hex? 2 0 cs = found at hhex ⊢
      cases hhex with
      | some h => exact .ok h
      | none => exact .refused _
    split
    · exact follows_unicodeEscape h.next
    split
    · exact .refused _
    · exact .ok h.next

theorem follows_through (stop : Char) (e : PatternError) {bound : Nat}
    (hbound : cs.length < bound) (h : At chars pos cs) :
    Follows chars (through chars stop e bound pos)
      (match through? stop cs with
        | some r => .ok r
        | none => .error e) := by
  induction bound generalizing pos cs with
  | zero => omega
  | succ bound ih =>
    cases cs with
    | nil =>
      simp only [through, next_nil h, ok_bind]
      exact .refused e
    | cons c cs =>
      have hrest := ih (Nat.lt_of_succ_lt_succ hbound) h.next
      simp only [through, next_cons h, ok_bind, through?]
      by_cases hstop : c = stop
      · rw [if_pos hstop, if_pos hstop]
        exact .ok h.next
      · rw [if_neg hstop, if_neg hstop]
        have hmore := hrest.map fun text => c :: text
        cases hfound : through? stop cs with
        | none => rw [hfound] at hmore; exact hmore
        | some r => rw [hfound] at hmore; exact hmore

theorem follows_propertyText (letter : Char) (h : At chars pos cs) :
    Follows chars (propertyText chars letter pos) (Pattern.propertyText letter cs) := by
  cases cs with
  | nil =>
    simp only [propertyText, next_nil h, ok_bind]
    exact .refused _
  | cons c cs =>
    simp only [propertyText, next_cons h, ok_bind, Pattern.propertyText]
    by_cases hopen : c = '{'
    · rw [if_pos hopen, if_pos hopen]
      have hthrough := follows_through '}' (.invalidEscape letter) h.next.lt_turns h.next
      have hname := hthrough.map fun name => '\\' :: letter :: '{' :: name
      cases hfound : through? '}' cs with
      | none => rw [hfound] at hname; exact hname
      | some r => rw [hfound] at hname; exact hname
    · rw [if_neg hopen, if_neg hopen]
      exact .ok h.next

end Escapes

section Loops

/-- A turn of a loop from a position does what reading the rest does first. -/
inductive Turns {α : Type} (chars : List Char) (body : Nat → Except Stop (Option α × Nat))
    (read : List Char → Except PatternError (List α × List Char)) (pos : Nat) (cs : List Char) :
    Prop
  | stops {after : Nat} {rest : List Char} (turn : body pos = .ok (none, after))
      (ends : At chars after rest) (shorter : rest.length ≤ cs.length)
      (reads : read cs = .ok ([], rest))
  | finds {item : α} {after : Nat} {rest : List Char} (turn : body pos = .ok (some item, after))
      (ends : At chars after rest) (shorter : rest.length < cs.length)
      (reads : read cs = (read rest).map fun r => (item :: r.1, r.2))
  | fails {stop : Stop} {e : PatternError} (turn : body pos = .error stop)
      (failure : Fails chars stop e) (reads : read cs = .error e)

variable {α : Type} {body : Nat → Except Stop (Option α × Nat)}
  {read : List Char → Except PatternError (List α × List Char)}

/-- A loop reads what reading the rest does, turn by turn, if it may turn more often than there are
characters left. -/
theorem follows_loop (hbody : ∀ {pos cs}, At chars pos cs → Turns chars body read pos cs)
    {bound : Nat} (hbound : cs.length < bound) (h : At chars pos cs) :
    Follows chars (loop body bound pos) (read cs) := by
  induction bound generalizing pos cs with
  | zero => omega
  | succ bound ih =>
    rw [loop]
    cases hbody h with
    | stops turn ends shorter reads =>
      rw [turn, reads]
      exact .ok ends
    | @finds item after rest turn ends shorter reads =>
      rw [turn, reads]
      exact (ih (by omega) ends).map fun items => item :: items
    | fails turn failure reads =>
      rw [turn, reads]
      exact .error failure

theorem progresses (hbody : ∀ {pos cs}, At chars pos cs → Turns chars body read pos cs) :
    Progresses chars body where
  onward within found := by
    cases hbody (at_drop within) with
    | stops turn => rw [found] at turn; cases turn
    | finds turn ends shorter =>
      rw [found] at turn
      cases turn
      exact ⟨(at_drop within).lt ends shorter, ends.le⟩
    | fails turn => rw [found] at turn; cases turn
  last within stopped := by
    cases hbody (at_drop within) with
    | stops turn ends shorter =>
      rw [stopped] at turn
      cases turn
      have hlength := ends.length
      have hlength' := (at_drop within).length
      exact ⟨by omega, ends.le⟩
    | finds turn => rw [stopped] at turn; cases turn
    | fails turn => rw [stopped] at turn; cases turn
  safe within failed := by
    cases hbody (at_drop within) with
    | stops turn => rw [failed] at turn; cases turn
    | finds turn => rw [failed] at turn; cases turn
    | fails turn failure => rw [failed] at turn; cases turn; exact failure.cases

end Loops

section Classes

/-- An escape in a class is read from its backslash on. -/
theorem follows_classEscape (h : At chars pos cs) :
    Follows chars (classEscape chars pos) (classAtom '\\' cs) := by
  unfold classAtom
  rw [if_neg (by decide), if_pos rfl]
  cases cs with
  | nil =>
    simp only [classEscape, next_nil h, ok_bind]
    exact .refused _
  | cons c cs =>
    simp only [classEscape, next_cons h, ok_bind]
    cases NamedSet.ofLetter? c with
    | some r => exact .ok h.next
    | none =>
      simp only
      split
      · exact .ok h.next
      split
      · exact (follows_propertyText c h.next).map _
      · exact (follows_codeEscape h).map _

/-- An atom of a class is read from its first character on. -/
theorem follows_classAtom (hc : c ≠ ']') (h : At chars pos (c :: cs)) :
    ∃ x, Follows chars x (classAtom c cs) ∧
      classAtom? chars pos = x.map fun r => (some r.1, r.2) := by
  simp only [classAtom?, next_cons h, ok_bind, if_neg hc]
  by_cases hescape : c = '\\'
  · subst hescape
    exact ⟨_, follows_classEscape h.next, if_pos rfl⟩
  rw [if_neg hescape]
  by_cases hdash : c = '-'
  · subst hdash
    exact ⟨_, .ok h.next, if_pos rfl⟩
  · unfold classAtom
    rw [if_neg hdash, if_neg hescape]
    exact ⟨_, .ok h.next, if_neg hdash⟩

theorem classAtoms_error {e : PatternError} (hc : c ≠ ']') (h : classAtom c cs = .error e) :
    classAtoms (c :: cs) = .error e := by
  rw [classAtoms, if_neg hc]
  split
  · next heq => rw [h] at heq; cases heq; rfl
  · next heq => rw [h] at heq; cases heq

theorem turns_classAtom? (h : At chars pos cs) :
    Turns chars (classAtom? chars) classAtoms pos cs := by
  cases cs with
  | nil =>
    have hturn : classAtom? chars pos = .error (.refused .unterminatedClass) := by
      simp only [classAtom?, next_nil h, ok_bind]
    exact .fails hturn (.refused _) (by rw [classAtoms])
  | cons c cs =>
    by_cases hc : c = ']'
    · refine .stops ?_ h.next (Nat.le_succ _) ?_
      · simp only [classAtom?, next_cons h, ok_bind, if_pos hc]
      · rw [classAtoms, if_pos hc]
    · obtain ⟨x, hx, hturn⟩ := follows_classAtom hc h
      cases hatom : classAtom c cs with
      | error e =>
        rw [hatom] at hx
        cases hx with
        | error fails => exact .fails hturn fails (classAtoms_error hc hatom)
      | ok r =>
        rw [hatom] at hx
        cases hx with
        | ok ends =>
          have hshorter := Nat.lt_succ_of_le (length_classAtom_le hatom)
          exact .finds hturn ends hshorter (classAtoms_cons hc hatom)

theorem follows_classToken (h : At chars pos cs) :
    Follows chars (classToken chars pos) (Pattern.classToken cs) := by
  obtain ⟨negated, body, rfl, hcaret⟩ := exists_body cs
  rw [classToken_body hcaret]
  have hopening : ∃ after, eat chars '^' pos = .ok (negated, after) ∧ At chars after body := by
    cases negated with
    | true => exact ⟨_, eat_cons h, h.next⟩
    | false => exact ⟨_, eat_other h (hcaret rfl), h⟩
  obtain ⟨after, heat, hbody⟩ := hopening
  have hatoms := follows_loop turns_classAtom? hbody.lt_turns hbody
  simp only [classToken, heat, ok_bind]
  cases hread : classAtoms body with
  | error e =>
    rw [hread] at hatoms
    generalize loop (classAtom? chars) (turns chars) after = x at hatoms ⊢
    cases hatoms with
    | error fails => exact .error fails
  | ok r =>
    obtain ⟨atoms, rest⟩ := r
    rw [hread] at hatoms
    generalize loop (classAtom? chars) (turns chars) after = x at hatoms ⊢
    cases hatoms with
    | ok ends =>
      simp only [ok_bind]
      cases hitems : ClassItem.ofAtoms atoms with
      | error e =>
        simp only [Except.bind, hitems]
        exact .refused e
      | ok items =>
        simp only [Except.bind, hitems]
        exact .ok ends

end Classes

section Tokens

theorem follows_groupOpening (h : At chars pos cs) :
    Follows chars (groupOpening chars pos) (Pattern.groupOpening cs) := by
  unfold Pattern.groupOpening
  split
  · simp only [groupOpening, next_cons h, ok_bind]
    exact .ok h.next
  · simp only [groupOpening, next_cons h, ok_bind]
    exact .ok h.next
  · simp only [groupOpening, next_cons h, ok_bind]
    exact .ok h.next
  · simp only [groupOpening, next_cons h, ok_bind, h.next.getElem?, List.head?_cons,
      moveTo_eq h.next.next, ok_map]
    exact .ok h.next.next
  · simp only [groupOpening, next_cons h, ok_bind, h.next.getElem?, List.head?_cons,
      moveTo_eq h.next.next, ok_map]
    exact .ok h.next.next
  · simp only [groupOpening, next_cons h, ok_bind, h.next.getElem?, List.head?_cons]
    exact .ok h.next
  · next hplain hahead hnot hbehind hnotBehind hnamed =>
    cases cs with
    | nil =>
      simp only [groupOpening, next_nil h, ok_bind]
      exact .refused _
    | cons c cs =>
      simp only [groupOpening, next_cons h, ok_bind]
      split
      · next heq => cases heq; exact absurd rfl (hplain _)
      · next heq => cases heq; exact absurd rfl (hahead _)
      · next heq => cases heq; exact absurd rfl (hnot _)
      · next heq =>
        cases heq
        cases cs with
        | nil => simp only [h.next.getElem?, List.head?_nil]; exact .refused _
        | cons d cs => exact absurd rfl (hnamed d cs)
      · exact .refused _

theorem turns_digit? (h : At chars pos cs) : Turns chars (digit? chars)
    (fun cs => .ok (cs.takeWhile Char.isDigit, cs.dropWhile Char.isDigit)) pos cs := by
  have hhead := h.getElem?
  cases cs with
  | nil =>
    refine .stops ?_ h (Nat.le_refl _) rfl
    rw [digit?, hhead, List.head?_nil, Option.filter_none]
  | cons d cs =>
    by_cases hdigit : d.isDigit = true
    · have hkeep : (some d).filter Char.isDigit = some d := if_pos hdigit
      have hturn : digit? chars pos = .ok (some d, pos + 1) := by
        rw [digit?, hhead, List.head?_cons, hkeep]
        simp only [moveTo_eq h.next, ok_map]
      refine .finds hturn h.next (Nat.lt_succ_self _) ?_
      rw [List.takeWhile_cons_of_pos hdigit, List.dropWhile_cons_of_pos hdigit]
      rfl
    · have hdrop : (some d).filter Char.isDigit = none := if_neg hdigit
      refine .stops ?_ h (Nat.le_refl _) ?_
      · rw [digit?, hhead, List.head?_cons, hdrop]
      · rw [List.takeWhile_cons_of_neg hdigit, List.dropWhile_cons_of_neg hdigit]

theorem follows_escape (h : At chars pos cs) :
    Follows chars (escape chars pos) (Pattern.escape cs) := by
  cases cs with
  | nil =>
    simp only [escape, next_nil h, ok_bind]
    exact .refused _
  | cons c cs =>
    simp only [escape, next_cons h, ok_bind, Pattern.escape, h.next.getElem?]
    cases NamedSet.ofLetter? c with
    | some r => exact .ok h.next
    | none =>
      simp only
      split
      · exact .ok h.next
      split
      · exact .ok h.next
      split
      · have hdigits := follows_loop turns_digit? h.next.lt_turns h.next
        exact hdigits.map fun digits => Token.backref (c :: digits)
      split
      · have hthrough := follows_through '>' (.invalidEscape 'k') h.next.lt_turns h.next
        have hname := hthrough.map Token.namedBackref
        cases hfound : through? '>' cs with
        | none => rw [hfound] at hname; exact hname
        | some r => rw [hfound] at hname; exact hname
      split
      · exact (follows_propertyText c h.next).map _
      · exact (follows_codeEscape h).map _

theorem follows_tokenAfter (h : At chars pos (c :: cs)) :
    Follows chars (tokenAfter chars c (pos + 1)) (Token.next c cs) := by
  unfold tokenAfter Token.next
  split
  · exact follows_escape h.next
  split
  · exact follows_classToken h.next
  split
  · exact .ok h.next
  split
  · exact .ok h.next
  split
  · split
    · next rest =>
      simp only [eat_cons h.next, ok_bind, if_true]
      exact (follows_groupOpening h.next.next).map _
    · next hplain =>
      have hne : cs.head? ≠ some '?' := by
        intro hhead
        obtain ⟨rest, rfl⟩ := List.head?_eq_some_iff.1 hhead
        exact hplain rest rfl
      simp only [eat_other h.next hne, ok_bind, Bool.false_eq_true, if_false]
      exact .ok h.next
  · exact .ok h.next

theorem turns_token? (h : At chars pos cs) :
    Turns chars (token? chars) (fun cs => (Token.scan cs).map fun ts => (ts, [])) pos cs := by
  cases cs with
  | nil =>
    refine .stops ?_ h (Nat.le_refl _) ?_
    · simp only [token?, next_nil h, ok_bind]
    · rw [Token.scan]
      rfl
  | cons c cs =>
    have htoken := follows_tokenAfter h
    have hturn : token? chars pos =
        (tokenAfter chars c (pos + 1)).map fun r => (some r.1, r.2) := by
      simp only [token?, next_cons h, ok_bind]
    generalize tokenAfter chars c (pos + 1) = x at htoken hturn
    cases hnext : Token.next c cs with
    | error e =>
      rw [hnext] at htoken
      cases htoken with
      | error fails => exact .fails hturn fails (by rw [scan_error hnext]; rfl)
    | ok r =>
      obtain ⟨t, rest⟩ := r
      rw [hnext] at htoken
      cases htoken with
      | ok ends =>
        refine .finds hturn ends (Nat.lt_succ_of_le (Token.length_next_le hnext)) ?_
        rw [scan_cons hnext]
        cases Token.scan rest <;> rfl

end Tokens

/-- Reading by position always ends, at the end of the text unless the pattern has an error, and
gives what is rendered. From anywhere in the text, every turn of the loop over the pattern and of
the loop over a class moves on, unless it is the last one, and ends in the text; nothing but an
error in the pattern makes it fail. A surrogate pair is joined to a code point beyond those of two
bytes. No number falls below zero or does not fit, but for the count of the digits in braces: it
fits as long as there are fewer than `2^31` of them, and only beyond that reading ends in an
overflow. -/
theorem render_terminates (source : String) (dialect : Dialect) :
    (render source dialect =
        ((Pattern.render source dialect).map fun r => (r, source.toList.length)).mapError
          Stop.refused ∨
      render source dialect = .error .overflow ∧ Uncounted source.toList) ∧
    Progresses source.toList (token? source.toList) ∧
    Progresses source.toList (classAtom? source.toList) ∧
    (∀ n pos, n ≤ 4 → pos ≤ source.toList.length → ∃ code? after,
      hex source.toList n 0 pos = .ok (code?, after) ∧ after ≤ source.toList.length) ∧
    (∀ pos ≤ source.toList.length,
      (∃ code? count after,
        bracedHex source.toList (turns source.toList) 0 0 pos = .ok ((code?, count), after) ∧
          pos + count ≤ after ∧ after ≤ source.toList.length) ∨
      bracedHex source.toList (turns source.toList) 0 0 pos = .error .overflow ∧
        DigitsFrom source.toList pos Word.countLimit) ∧
    ∀ high low, isHighSurrogate high = true → isLowSurrogate low = true →
      joinSurrogates? high low = some (joinSurrogates high low) ∧
        0x10000 ≤ joinSurrogates high low ∧ joinSurrogates high low ≤ 0x10FFFF := by
  refine ⟨?_, progresses turns_token?, progresses turns_classAtom?, fun n pos hn hpos => ?_,
    fun pos hpos => ?_, fun high low => joinSurrogates?_eq⟩
  · have hread := follows_loop turns_token? (at_start source.toList).lt_turns
      (at_start source.toList)
    unfold render Pattern.render
    generalize loop (token? source.toList) (turns source.toList) 0 = x at hread ⊢
    cases hscan : Token.scan source.toList with
    | error e =>
      rw [hscan] at hread
      cases hread with
      | error fails =>
        cases fails with
        | refused => exact .inl rfl
        | overflow many => exact .inr ⟨rfl, many⟩
    | ok ts =>
      rw [hscan] at hread
      cases hread with
      | @ok _ pos _ ends =>
        obtain rfl : pos = source.toList.length := ends.length
        exact .inl rfl
  · have hroom : ∀ n ≤ 4, 0 < room n := by decide
    have hread := tries_hex (hroom n hn) (at_drop hpos)
    generalize hex source.toList n 0 pos = x at hread ⊢
    generalize hex? n 0 (source.toList.drop pos) = found at hread
    cases hread with
    | some h => exact ⟨_, _, rfl, h.le⟩
    | none h => exact ⟨_, _, rfl, h⟩
  · have hdrop := at_drop hpos
    have hends : Ends source.toList pos 0
        (bracedHex source.toList (turns source.toList) 0 0 pos) :=
      bracedHex_ends hdrop.lt_turns (.zero _ pos) (by decide) hdrop
    generalize bracedHex source.toList (turns source.toList) 0 0 pos = x at hends ⊢
    cases hends with
    | ends _ behind within => exact .inl ⟨_, _, _, rfl, behind, within⟩
    | overflow many => exact .inr ⟨rfl, many⟩

/-- Reading moves back over the letter of a lone `\c`, and over an escape that is not the other half
of a surrogate pair. -/
theorem render_terminates_backwards :
    (∃ r, render "\\c\\uD83D\\u0041" .linear = .ok (r, 14)) ∧
      joinSurrogates? 0xD83D 0xDE00 = some 0x1F600 := by
  obtain ⟨hrender, -, -, -, -, hpair⟩ := render_terminates "\\c\\uD83D\\u0041" .linear
  have hscan : Token.scan "\\c\\uD83D\\u0041".toList =
      .ok [.code 0x5C, .raw 'c', .code 0xD83D, .code 0x41] := by decide +kernel
  rw [Pattern.render, hscan] at hrender
  refine ⟨?_, (hpair _ _ rfl rfl).1⟩
  rcases hrender with hrender | ⟨-, start, hmany⟩
  · exact ⟨_, hrender⟩
  · -- the text is too short for an overflow
    obtain ⟨c, hc, -⟩ := hmany 14 (by decide)
    have hend : "\\c\\uD83D\\u0041".toList[start + 14]? = none :=
      List.getElem?_eq_none (Nat.le_add_left 14 start)
    rw [hend] at hc
    cases hc

section Overlong

variable {n : Nat}

/-- Where the digits of a number are counted no further, reading ends before they spell anything. -/
theorem bracedHex_zeros {count bound : Nat} (hpos : 0 < n) (hcount : count + n = Word.countLimit)
    (hbound : n ≤ bound) (h : At chars pos (List.replicate n '0' ++ rest)) :
    bracedHex chars bound 0 count pos = .error .overflow := by
  induction n generalizing count bound pos with
  | zero => omega
  | succ n ih =>
    obtain ⟨bound, rfl⟩ : ∃ more, bound = more + 1 := ⟨bound - 1, by omega⟩
    rw [List.replicate_succ, List.cons_append] at h
    have hzero : ((Word.mul? 0 16).bind fun scaled =>
        (hexDigit? '0').bind (Word.add? scaled)) = some 0 := rfl
    simp only [bracedHex, next_cons h, ok_bind, hzero]
    rw [if_neg fun hclose => absurd hclose.1 (by decide)]
    cases hnext : Word.count? count with
    | none => rfl
    | some next =>
      obtain ⟨rfl, hlt⟩ := Word.count?_eq_some.1 hnext
      exact ih (by omega) (by omega) (by omega) h.next

theorem token?_zeros (h : At chars pos ('\\' :: 'u' :: '{' ::
    (List.replicate Word.countLimit '0' ++ rest))) : token? chars pos = .error .overflow := by
  have hletter := h.next
  have hopen := hletter.next
  have hdigits := hopen.next
  have hroom : Word.countLimit ≤ turns chars := by
    have hlength := hdigits.lt_turns
    rw [List.length_append, List.length_replicate] at hlength
    omega
  have hbraced : bracedEscape chars (pos + 1 + 1 + 1) = .error .overflow := by
    rw [bracedEscape, bracedHex_zeros (by decide) (Nat.zero_add _) hroom hdigits]
    rfl
  have hunicode : unicodeEscape chars (pos + 1 + 1) = .error .overflow := by
    simp only [unicodeEscape, eat_cons hopen, ok_bind, if_true, hbraced]
  have hcode : codeEscape chars 'u' (pos + 1 + 1) = .error .overflow := hunicode
  have hescape : escape chars (pos + 1) = .error .overflow := by
    rw [escape, next_cons hletter, ok_bind]
    show (codeEscape chars 'u' (pos + 1 + 1)).map _ = _
    rw [hcode]
    rfl
  rw [token?, next_cons h, ok_bind]
  show (escape chars (pos + 1)).map _ = _
  rw [hescape]
  rfl

/-- A pattern that begins with more zeros in braces than can be counted. -/
theorem render_zeros (rest : List Char) (dialect : Dialect) :
    render (String.ofList ('\\' :: 'u' :: '{' ::
      (List.replicate Word.countLimit '0' ++ rest))) dialect = .error .overflow := by
  have hstart := at_start ('\\' :: 'u' :: '{' :: (List.replicate Word.countLimit '0' ++ rest))
  rw [render, String.toList_ofList, turns, loop, token?_zeros hstart]
  rfl

/-- The escape of a null that has `2^31` digits is read to an overflow of their count. -/
theorem render_overlong : render (String.ofList ('\\' :: 'u' :: '{' ::
    (hexDigits overlongDigits ++ ['}']))) .linear = .error .overflow := by
  rw [hexDigits_overlongDigits]
  exact render_zeros _ _

end Overlong

end JsonRules.Pattern.Cursor
