import JsonRules.Pattern.Backtrack.Reader
import JsonRules.Proofs.Pattern.Scanned

/-!
# Reading a text piece by piece

What the readers of the two matchers have in common. A text is `Closed` if it is read as the same
lexemes whatever follows it, as it is if it is one `Whole` lexeme. It `Splits` from a given text
after it if the two are read as if each stood alone. Classes, single code points and properties are
whole lexemes of both matchers.
-/

namespace JsonRules.Pattern

open Linear
open Text (upperHex)
open Unicode (CodeSet)

/-- A reader that takes one lexeme after the other from a text of at most the given length. -/
structure Lexer (L : Type) where
  next? : Char → List Char → Option (L × List Char)
  scan : Nat → List Char → Option (List L)
  /-- A set of characters in brackets within one another to the given depth. -/
  set : CodeSet → Nat → L
  scan_nil : ∀ bound, scan bound [] = some []
  scan_cons : ∀ bound c cs, scan (bound + 1) (c :: cs) =
    (next? c cs).bind fun r => (scan bound r.2).map (r.1 :: ·)
  next?_plain : ∀ c cs, c ∉ lexemeMarks → next? c cs = some (set (single c.toNat) 0, cs)
  next?_escaped : ∀ c cs, c.isDigit = false → c ≠ 'k' →
    next? '\\' (c :: cs) = (escapedSet? (c :: cs)).map fun r => (set r.1 0, r.2)
  next?_class : ∀ cs, next? '[' cs =
    (class? cs).map fun r => (set r.1.1 (if r.1.2 = 1 then 1 else 2), r.2)

theorem Linear.Lexeme.scan_cons (bound : Nat) (c : Char) (cs : List Char) :
    Linear.Lexeme.scan (bound + 1) (c :: cs) = (Linear.Lexeme.next? c cs).bind fun r =>
      (Linear.Lexeme.scan bound r.2).map (r.1 :: ·) := by
  rw [Linear.Lexeme.scan]
  cases Linear.Lexeme.next? c cs with
  | none => rfl
  | some r => cases h : Linear.Lexeme.scan bound r.2 <;> simp [h]

theorem Backtrack.Lexeme.scan_cons (bound : Nat) (c : Char) (cs : List Char) :
    Backtrack.Lexeme.scan (bound + 1) (c :: cs) = (Backtrack.Lexeme.next? c cs).bind fun r =>
      (Backtrack.Lexeme.scan bound r.2).map (r.1 :: ·) := by
  rw [Backtrack.Lexeme.scan]
  cases Backtrack.Lexeme.next? c cs with
  | none => rfl
  | some r => cases h : Backtrack.Lexeme.scan bound r.2 <;> simp [h]

theorem Backtrack.next?_plain {c : Char} (h : c ∉ lexemeMarks) (cs : List Char) :
    Backtrack.Lexeme.next? c cs = some (.set (single c.toNat), cs) := by
  unfold Backtrack.Lexeme.next?
  split <;> first | rfl | exact absurd (by decide) h

theorem Backtrack.next?_escaped {c : Char} (hdigit : c.isDigit = false) (hk : c ≠ 'k')
    (cs : List Char) : Backtrack.Lexeme.next? '\\' (c :: cs) =
      (escapedSet? (c :: cs)).map fun r => (.set r.1, r.2) := by
  rw [Backtrack.Lexeme.next?, Backtrack.Lexeme.escape?]
  · rw [hdigit]
    rfl
  · exact fun _ heq => absurd heq hk

namespace Lexer

def linear : Lexer Linear.Lexeme where
  next? := Linear.Lexeme.next?
  scan := Linear.Lexeme.scan
  set := .set
  scan_nil _ := by rw [Linear.Lexeme.scan]
  scan_cons := Linear.Lexeme.scan_cons
  next?_plain _ cs h := Linear.next?_plain h cs
  next?_escaped _ _ _ _ := rfl
  next?_class _ := rfl

/-- The reader of the backtracking matcher, which does not count the depth of sets. -/
def backtracking : Lexer Backtrack.Lexeme where
  next? := Backtrack.Lexeme.next?
  scan := Backtrack.Lexeme.scan
  set codes _ := .set codes
  scan_nil _ := by rw [Backtrack.Lexeme.scan]
  scan_cons := Backtrack.Lexeme.scan_cons
  next?_plain _ cs h := Backtrack.next?_plain h cs
  next?_escaped _ cs hdigit hk := Backtrack.next?_escaped hdigit hk cs
  next?_class _ := rfl

variable {L : Type} (x : Lexer L)

/-- The text is read as the lexemes, or refused. -/
def Reads (cs : List Char) (lexemes? : Option (List L)) : Prop :=
  ∀ bound, cs.length ≤ bound → x.scan bound cs = lexemes?

def joined (xs? ys? : Option (List L)) : Option (List L) := xs?.bind fun xs => ys?.map (xs ++ ·)

theorem joined_assoc (xs? ys? zs? : Option (List L)) :
    joined (joined xs? ys?) zs? = joined xs? (joined ys? zs?) := by
  cases xs? <;> cases ys? <;> cases zs? <;> simp [joined]

variable {x}

theorem Reads.nil : x.Reads [] (some []) := fun bound _ => x.scan_nil bound

theorem Reads.next {c : Char} {cs rest : List Char} {lexeme : L} {lexemes? : Option (List L)}
    (head : x.next? c cs = some (lexeme, rest)) (shorter : rest.length ≤ cs.length)
    (tail : x.Reads rest lexemes?) : x.Reads (c :: cs) (lexemes?.map (lexeme :: ·)) := by
  rintro (- | bound) hle
  · exact absurd hle (Nat.not_succ_le_zero _)
  · rw [x.scan_cons, head, Option.bind_some,
      tail bound (Nat.le_trans shorter (Nat.le_of_succ_le_succ hle))]

theorem Reads.refused {c : Char} {cs : List Char} (head : x.next? c cs = none) :
    x.Reads (c :: cs) none := by
  rintro (- | bound) hle
  · exact absurd hle (Nat.not_succ_le_zero _)
  · rw [x.scan_cons, head, Option.bind_none]

theorem Reads.scan {cs : List Char} {lexemes? : Option (List L)} (h : x.Reads cs lexemes?) :
    x.scan cs.length cs = lexemes? :=
  h _ (Nat.le_refl _)

variable (x)

/-- The text is read as the lexemes, or refused, whatever follows it. -/
def Closed (cs : List Char) (xs? : Option (List L)) : Prop :=
  ∀ rest ys?, x.Reads rest ys? → x.Reads (cs ++ rest) (joined xs? ys?)

/-- The first text is read as if the second one did not follow it, and the second one as if the
first did not stand before it. -/
def Splits (cs ds : List Char) : Prop :=
  ∃ xs?, x.Reads cs xs? ∧ ∀ ys?, x.Reads ds ys? → x.Reads (cs ++ ds) (joined xs? ys?)

variable {x}

theorem Closed.append {cs ds : List Char} {xs? ys? : Option (List L)} (h : x.Closed cs xs?)
    (h' : x.Closed ds ys?) : x.Closed (cs ++ ds) (joined xs? ys?) := by
  intro rest zs? hrest
  rw [List.append_assoc, joined_assoc]
  exact h _ _ (h' _ _ hrest)

/-- A text that is one lexeme, or refused. -/
theorem Closed.one? {c : Char} {cs : List Char} (lexeme? : Option L)
    (h : ∀ rest, x.next? c (cs ++ rest) = lexeme?.map fun lexeme => (lexeme, rest)) :
    x.Closed (c :: cs) (lexeme?.map fun lexeme => [lexeme]) := by
  intro rest ys? hrest
  cases lexeme? with
  | none => exact .refused (h rest)
  | some lexeme =>
    have hnext := Reads.next (h rest) (by simp) hrest
    cases ys? <;> exact hnext

theorem Closed.one {c : Char} {cs : List Char} {lexeme : L}
    (h : ∀ rest, x.next? c (cs ++ rest) = some (lexeme, rest)) :
    x.Closed (c :: cs) (some [lexeme]) :=
  .one? (some lexeme) h

theorem Closed.refused {c : Char} {cs : List Char}
    (h : ∀ rest, x.next? c (cs ++ rest) = none) : x.Closed (c :: cs) none :=
  .one? none h

variable (x)

/-- The text is one lexeme whatever follows it, or is refused. -/
def Whole (cs : List Char) (lexeme? : Option L) : Prop :=
  ∃ c tail, cs = c :: tail ∧
    ∀ rest, x.next? c (tail ++ rest) = lexeme?.map fun lexeme => (lexeme, rest)

variable {x}

theorem Whole.closed {cs : List Char} {lexeme? : Option L} (h : x.Whole cs lexeme?) :
    x.Closed cs (lexeme?.map fun lexeme => [lexeme]) := by
  obtain ⟨c, tail, rfl, h⟩ := h
  exact .one? lexeme? h

theorem Splits.nil (ds : List Char) : x.Splits [] ds := by
  refine ⟨some [], .nil, fun ys? hds => ?_⟩
  cases ys? <;> exact hds

theorem Splits.closed {cs ds more : List Char} {xs? : Option (List L)} (h : x.Closed cs xs?)
    (h' : x.Splits ds more) : x.Splits (cs ++ ds) more := by
  obtain ⟨ys?, hds, hboth⟩ := h'
  refine ⟨joined xs? ys?, h _ _ hds, fun zs? hmore => ?_⟩
  rw [List.append_assoc, joined_assoc]
  exact h _ _ (hboth zs? hmore)

/-- One lexeme is read whether or not the second text follows. -/
theorem Splits.next {c : Char} {cs ds rest : List Char} {lexeme : L}
    (head : x.next? c cs = some (lexeme, rest)) (shorter : rest.length ≤ cs.length)
    (both : x.next? c (cs ++ ds) = some (lexeme, rest ++ ds)) (h : x.Splits rest ds) :
    x.Splits (c :: cs) ds := by
  obtain ⟨xs?, hrest, happend⟩ := h
  refine ⟨_, .next head shorter hrest, fun ys? hds => ?_⟩
  have hnext := Reads.next both (by simpa using shorter) (happend ys? hds)
  cases xs? <;> cases ys? <;> exact hnext

theorem Splits.refused {c : Char} {cs ds : List Char} (head : x.next? c cs = none)
    (both : x.next? c (cs ++ ds) = none) : x.Splits (c :: cs) ds :=
  ⟨none, .refused head, fun _ _ => .refused both⟩

section Sets

/-- A single character that is no mark is one lexeme. -/
theorem whole_plain {c : Char} (h : c ∉ lexemeMarks) :
    x.Whole [c] (some (x.set (single c.toNat) 0)) :=
  ⟨c, [], rfl, fun rest => x.next?_plain c rest h⟩

/-- An escape that is read as a set is one lexeme. -/
theorem whole_escape {c : Char} {cs : List Char} (hdigit : c.isDigit = false) (hk : c ≠ 'k')
    (codes? : Option CodeSet)
    (h : ∀ rest, escapedSet? (c :: (cs ++ rest)) = codes?.map fun codes => (codes, rest)) :
    x.Whole ('\\' :: c :: cs) (codes?.map fun codes => x.set codes 0) := by
  refine ⟨'\\', c :: cs, rfl, fun rest => ?_⟩
  rw [List.cons_append, x.next?_escaped _ _ hdigit hk, h]
  cases codes? <;> rfl

theorem whole_property {text : List Char} (h : IsPropertyText text) :
    ∃ lexeme?, x.Whole text lexeme? := by
  obtain ⟨negated, tail, rfl, hread⟩ := h.property?
  have hescaped : ∀ rest, escapedSet? (propertyLetter negated :: (tail ++ rest)) =
      (propertyCodes? ('\\' :: propertyLetter negated :: tail)).map fun codes => (codes, rest) := by
    intro rest
    rw [← hread rest]
    cases negated <;> rfl
  exact ⟨_, whole_escape (by cases negated <;> rfl) (by cases negated <;> decide) _ hescaped⟩

theorem whole_meta {c : Char} (h : isMeta c = true) :
    x.Whole ['\\', c] (some (x.set (single c.toNat) 0)) := by
  have hk : c ≠ 'k' := by
    rintro rfl
    cases h
  exact whole_escape (isDigit_of_isMeta h) hk (some _) (escapedSet?_meta h)

/-- A class that is read as a set is one lexeme. -/
theorem whole_bracketed {cs : List Char} (read? : Option (CodeSet × Nat))
    (h : ∀ rest, class? (cs ++ rest) = read?.map fun read => (read, rest)) :
    x.Whole ('[' :: cs) (read?.map fun read => x.set read.1 (if read.2 = 1 then 1 else 2)) := by
  refine ⟨'[', cs, rfl, fun rest => ?_⟩
  rw [x.next?_class, h]
  cases read? <;> rfl

theorem whole_class {items : List ClassItem} (h : ∀ i ∈ items, i.IsWritten) (negated : Bool) :
    x.Whole (classText negated items) ((setsOf? items).map fun sets =>
      x.set (classChars negated sets.flatten) (if max 1 sets.length = 1 then 1 else 2)) := by
  obtain ⟨cs, htext, hread⟩ := class?_classText h negated
  have hwhole := whole_bracketed (x := x)
    ((setsOf? items).map fun sets => (classChars negated sets.flatten, max 1 sets.length))
    fun rest => by
      rw [hread, Option.map_map]
      rfl
  rwa [Option.map_map, ← htext] at hwhole

theorem whole_set (named : NamedSet) (negated : Bool) :
    ∃ lexeme?, x.Whole (setText negated named.codes) lexeme? := by
  have hne : rangesText named.codes ≠ [] := by cases named <;> decide
  have htext : classText negated [.set named.codes] = setText negated named.codes := by
    simp [classText, setText, ClassItem.text, hne]
  rw [← htext]
  have hwritten : ∀ i ∈ [ClassItem.set named.codes], i.IsWritten :=
    List.forall_mem_singleton.2 trivial
  exact ⟨_, whole_class hwritten negated⟩

theorem whole_dot : ∃ lexeme?, x.Whole dotText lexeme? := by
  have hread : ∀ rest, class? ('^' :: '\\' :: 'n' :: '\\' :: 'r' ::
      (lineSeparators.flatMap memberText ++ (']' :: rest))) =
        some ((classChars true lineEnds, lineEnds.length), rest) :=
    fun rest => (classBody_dot rest).class? (by decide) true
  rw [dotText_eq]
  refine ⟨_, whole_bracketed (some (classChars true lineEnds, lineEnds.length)) ?_⟩
  intro rest
  rw [Option.map_some, ← hread rest]
  simp only [List.cons_append, List.append_assoc, List.nil_append]

/-- A code point outside of a class is read as the set of itself, and a surrogate as no
character. -/
theorem whole_code (code : Nat) :
    x.Whole (codeText code) (some (x.set (codeChars code) (codeLevels code))) := by
  have hscalar : ∀ {code}, isSurrogate code = false → ∀ {cs},
      x.Whole cs (some (x.set (single code) 0)) →
        x.Whole cs (some (x.set (codeChars code) (codeLevels code))) := by
    intro code h cs hwhole
    rwa [(codeChars_of_scalar h).1, (codeChars_of_scalar h).2]
  have hform := codeForm code
  generalize codeText code = text at hform
  cases hform with
  | surrogate h =>
    have hnone : classChars false [] = [] := by cbv
    have hclass := whole_class (x := x) (List.forall_mem_nil _) false
    rw [setsOf?, Option.map_some, List.flatten_nil, hnone] at hclass
    rw [codeChars, codeLevels, if_pos h, if_pos h]
    exact hclass
  | number h =>
    refine hscalar h (whole_escape (by decide) (by decide) (some _) fun rest => ?_)
    show escapedSet? ('x' :: '{' :: (upperHex code ++ ['}'] ++ rest)) = some (single code, rest)
    rw [List.append_assoc]
    exact escapedSet?_number code rest
  | escaped h => exact hscalar (isSurrogate_toNat _) (whole_meta h)
  | plain h => exact hscalar (isSurrogate_toNat _) (whole_plain (not_mem_lexemeMarks h))

theorem closed_code (code : Nat) :
    x.Closed (codeText code) (some [x.set (codeChars code) (codeLevels code)]) :=
  (whole_code code).closed

end Sets

end Lexer

end JsonRules.Pattern
