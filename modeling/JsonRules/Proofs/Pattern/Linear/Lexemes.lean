import JsonRules.Pattern.Linear.Reader
import JsonRules.Proofs.Pattern.CharSet
import JsonRules.Proofs.Pattern.Scan

/-!
# The lexemes of a pattern

A pattern that is written in the syntax of the linear matcher is read as the lexemes that stand for
its parts: a set for whatever matches one character, and the lexemes of groups, quantifiers and
assertions. A pattern is refused here for a count of `2^32` or more and for a `$` in the name of a
group, and for nothing else.
-/

namespace JsonRules.Pattern.Linear

open Unicode (CodeRange CodeSet maxCode)
open Text (upperHex)

/-- The lexemes of a text, or none if it is refused. -/
inductive Lexes : List Char → Option (List Lexeme) → Prop
  | nil : Lexes [] (some [])
  | next {c : Char} {cs rest : List Char} {lexeme : Lexeme} {lexemes? : Option (List Lexeme)}
      (head : Lexeme.next? c cs = some (lexeme, rest)) (shorter : rest.length ≤ cs.length)
      (tail : Lexes rest lexemes?) : Lexes (c :: cs) (lexemes?.map (lexeme :: ·))
  | refused {c : Char} {cs : List Char} (head : Lexeme.next? c cs = none) : Lexes (c :: cs) none

theorem Lexes.scan {cs : List Char} {lexemes? : Option (List Lexeme)} (h : Lexes cs lexemes?) :
    ∀ bound, cs.length ≤ bound → Lexeme.scan bound cs = lexemes? := by
  induction h with
  | nil => intro bound _; rw [Lexeme.scan]
  | @next c cs rest lexeme lexemes? head shorter _ ih =>
    rintro (- | bound) hle
    · exact absurd hle (Nat.not_succ_le_zero _)
    · rw [Lexeme.scan, head]
      simp only [Option.bind_eq_bind, Option.bind_some]
      rw [ih bound (by simp only [List.length_cons] at hle; omega)]
      cases lexemes? <;> rfl
  | refused head =>
    rintro (- | bound) hle
    · exact absurd hle (Nat.not_succ_le_zero _)
    · rw [Lexeme.scan, head]
      rfl

/-- The text is read as the lexemes, whatever follows it, unless it is refused. -/
def LexemeText (cs : List Char) (readable : Bool) (lexemes : List Lexeme) (rest : List Char) :
    Prop :=
  ∀ more?, Lexes rest more? →
    Lexes (cs ++ rest) (if readable then more?.map (lexemes ++ ·) else none)

namespace LexemeText

theorem nil (rest : List Char) : LexemeText [] true [] rest := by
  intro more? hrest
  cases more? <;> exact hrest

theorem append {cs ds rest : List Char} {readable readable' : Bool} {xs ys : List Lexeme}
    (h : LexemeText cs readable xs (ds ++ rest)) (h' : LexemeText ds readable' ys rest) :
    LexemeText (cs ++ ds) (readable && readable') (xs ++ ys) rest := by
  intro more? hrest
  have hboth := h _ (h' more? hrest)
  rw [← List.append_assoc] at hboth
  cases readable with
  | false => exact hboth
  | true =>
    cases readable' with
    | false => exact hboth
    | true => cases more? <;> simpa using hboth

/-- One lexeme, unless it is refused. -/
theorem one? {c : Char} {cs rest : List Char} {readable : Bool} {lexeme : Lexeme}
    (h : Lexeme.next? c (cs ++ rest) = if readable then some (lexeme, rest) else none) :
    LexemeText (c :: cs) readable [lexeme] rest := by
  intro more? hrest
  cases readable with
  | false => exact .refused h
  | true => exact .next h (by simp) hrest

theorem one {c : Char} {cs rest : List Char} {lexeme : Lexeme}
    (h : Lexeme.next? c (cs ++ rest) = some (lexeme, rest)) :
    LexemeText (c :: cs) true [lexeme] rest :=
  one? h

theorem char {c : Char} {rest : List Char} {lexeme : Lexeme}
    (h : Lexeme.next? c rest = some (lexeme, rest)) : LexemeText [c] true [lexeme] rest :=
  one h

/-- The lexemes of a text that is scanned alone. -/
theorem scan {cs : List Char} {readable : Bool} {lexemes : List Lexeme}
    (h : LexemeText cs readable lexemes []) :
    Lexeme.scan cs.length cs = if readable then some lexemes else none := by
  have hscan := (h _ .nil).scan cs.length (by simp)
  rwa [List.append_nil, Option.map_some, List.append_nil] at hscan

end LexemeText

section Sets

def classChars (negated : Bool) (ranges : CodeSet) : CodeSet :=
  if negated then negate (CodeSet.ofRanges ranges) else CodeSet.ofRanges ranges

/-- How many levels a class of the given ranges is written in. -/
def classLevels (ranges : CodeSet) : Nat := if ranges.length ≤ 1 then 1 else 2

theorem next?_class {body rest : List Char} {ranges : CodeSet} (h : ClassBody body ranges rest)
    (hne : ranges ≠ []) (negated : Bool) :
    Lexeme.next? '[' ((if negated then ['^'] else []) ++ body) =
      some (.set (classChars negated ranges) (classLevels ranges), rest) := by
  have hlevels : (if ranges.length = 1 then 1 else 2) = classLevels ranges := by
    have hpos := List.length_pos_iff.2 hne
    rw [classLevels]
    split <;> split <;> omega
  rw [Lexeme.next?, h.class? hne, Option.map_some, classChars, ← hlevels]

def allCodes : CodeRange := ⟨0, maxCode⟩

theorem classBody_all (rest : List Char) :
    ClassBody (memberText allCodes ++ (']' :: rest)) [allCodes] rest := by
  have htext := List.length_pos_iff.2 (memberText_ne_nil allCodes)
  refine .member (classMember?_text (by decide) (by simp)) ?_ (.close rest)
  rw [List.length_append]
  omega

theorem anyText_eq : anyText = '[' :: (memberText allCodes ++ [']']) := by decide

theorem noneText_eq : noneText = '[' :: '^' :: (memberText allCodes ++ [']']) := by
  decide

/-- The text of a class is read as its set, and so are the texts for a class without members. -/
theorem lexemeText_class {items : List ClassItem} (hitems : ∀ i ∈ items, i.IsExplicit)
    (negated : Bool) (rest : List Char) :
    LexemeText (classText negated items) true [.set
      (classChars negated (items.flatMap ClassItem.ranges))
      (classLevels (items.flatMap ClassItem.ranges))] rest := by
  have hall := classBody_all rest
  have hbody := ClassBody.items hitems (.close rest)
  rw [List.append_nil] at hbody
  unfold classText
  simp only
  split
  · next hempty =>
    -- all characters and none are each other's complement
    have hchars : ∀ negated, classChars negated [] = classChars (!negated) [allCodes] := by
      rintro (- | -) <;> cbv
    rw [List.isEmpty_iff, flatMap_text_eq_nil hitems] at hempty
    rw [hempty, hchars]
    cases negated with
    | true =>
      rw [if_pos rfl, anyText_eq]
      refine .one ?_
      rw [List.append_assoc]
      exact next?_class hall (by decide) false
    | false =>
      rw [if_neg (by decide), noneText_eq]
      refine .one ?_
      rw [List.cons_append, List.append_assoc]
      exact next?_class hall (by decide) true
  · next hne =>
    rw [List.isEmpty_iff, flatMap_text_eq_nil hitems] at hne
    rw [List.append_assoc, List.cons_append]
    refine .one ?_
    rw [List.append_assoc, List.append_assoc]
    exact next?_class hbody hne negated

theorem lexemeText_set (negated : Bool) (named : NamedSet) (rest : List Char) :
    LexemeText (setText negated named.codes) true [.set
      (classChars negated (ClassItem.ranges (.set named.codes)))
      (classLevels (ClassItem.ranges (.set named.codes)))] rest := by
  have hne : rangesText named.codes ≠ [] := by cases named <;> decide
  have hexplicit : ∀ i ∈ [ClassItem.set named.codes], i.IsExplicit := by simp [ClassItem.IsExplicit]
  have htext : classText negated [.set named.codes] = setText negated named.codes := by
    simp [classText, setText, ClassItem.text, hne]
  have hset := lexemeText_class hexplicit negated rest
  rwa [htext, List.flatMap_singleton] at hset

def lineEnds : CodeSet := [⟨0x0A, 0x0A⟩, ⟨0x0D, 0x0D⟩, ⟨0x2028, 0x2028⟩, ⟨0x2029, 0x2029⟩]

/-- The line ends that are written by number. -/
def lineSeparators : CodeSet := [⟨0x2028, 0x2028⟩, ⟨0x2029, 0x2029⟩]

theorem dotText_eq : dotText = '[' :: '^' :: '\\' :: 'n' :: '\\' :: 'r' ::
    (lineSeparators.flatMap memberText ++ [']']) := by decide

theorem classBody_dot (rest : List Char) :
    ClassBody ('\\' :: 'n' :: '\\' :: 'r' :: (lineSeparators.flatMap memberText ++ (']' :: rest)))
      lineEnds rest := by
  have hlast : ClassBody (lineSeparators.flatMap memberText ++ (']' :: rest)) lineSeparators rest :=
    .members (by decide) (.close rest)
  exact .member rfl (by simp only [List.length_cons]; omega)
    (.member (classMember?_of_classCode? rfl hlast.head.1)
      (by simp only [List.length_cons]; omega) hlast)

theorem lexemeText_dot (rest : List Char) :
    LexemeText dotText true [.set (classChars true lineEnds) (classLevels lineEnds)] rest := by
  rw [dotText_eq]
  refine .one ?_
  simp only [List.cons_append, List.append_assoc]
  exact next?_class (classBody_dot rest) (by decide) true

/-- The set that a code point is read as; a surrogate is written as a class without members. -/
def codeChars (code : Nat) : CodeSet := if isSurrogate code then [] else single code

def codeLevels (code : Nat) : Nat := if isSurrogate code then 1 else 0

/-- The characters that begin another lexeme than a character. -/
def lexemeMarks : List Char := ['\\', '[', '(', ')', '|', '^', '$', '*', '+', '?', '{']

theorem next?_plain {c : Char} (h : c ∉ lexemeMarks) (cs : List Char) :
    Lexeme.next? c cs = some (.set (single c.toNat) 0, cs) := by
  unfold Lexeme.next?
  split <;> first | rfl | exact absurd (by decide) h

theorem next?_escaped {c : Char} (h : isMeta c = true) (cs : List Char) :
    Lexeme.next? '\\' (c :: cs) = some (.set (single c.toNat) 0, cs) := by
  rw [Lexeme.next?, escapedSet?_meta h]
  rfl

theorem next?_hexText (code : Nat) (rest : List Char) :
    Lexeme.next? '\\' ('x' :: '{' :: (upperHex code ++ '}' :: rest)) =
      some (.set (single code) 0, rest) := by
  rw [Lexeme.next?, escapedSet?_number]
  rfl

theorem codeChars_of_scalar {code : Nat} (h : isSurrogate code = false) :
    codeChars code = single code ∧ codeLevels code = 0 := by
  rw [codeChars, codeLevels, h]
  exact ⟨rfl, rfl⟩

/-- What is not written with a backslash is no mark. -/
theorem not_mem_lexemeMarks {c : Char} (h : isMeta c = false) : c ∉ lexemeMarks := by
  have hmarks : ∀ c ∈ lexemeMarks, isMeta c = true := by simp [lexemeMarks, isMeta]
  intro hmark
  exact absurd (h.symm.trans (hmarks c hmark)) (by decide)

/-- A code point outside of a class is read back; a surrogate as no character. -/
theorem lexemeText_code (code : Nat) (rest : List Char) :
    LexemeText (codeText code) true [.set (codeChars code) (codeLevels code)] rest := by
  have hscalar : ∀ {code}, isSurrogate code = false → ∀ {cs}, LexemeText cs true
      [.set (single code) 0] rest → LexemeText cs true [.set (codeChars code) (codeLevels code)]
        rest := by
    intro code h cs htext
    rwa [(codeChars_of_scalar h).1, (codeChars_of_scalar h).2]
  have hform := codeForm code
  generalize codeText code = text at hform
  cases hform with
  | surrogate h =>
    have hnone : classChars false [] = [] := by cbv
    have hclass := lexemeText_class (List.forall_mem_nil _) false rest
    rw [codeChars, codeLevels, if_pos h, if_pos h]
    rwa [List.flatMap_nil, hnone] at hclass
  | number h =>
    refine hscalar h (.one ?_)
    rw [← next?_hexText code rest]
    simp
  | escaped h => exact hscalar (isSurrogate_toNat _) (.one (next?_escaped h rest))
  | plain h => exact hscalar (isSurrogate_toNat _) (.one (next?_plain (not_mem_lexemeMarks h) rest))

end Sets

section Quantifiers

theorem isWhiteSpace_digit {c : Char} (h : c.isDigit = true) : Unicode.isWhiteSpace c = false := by
  have hrange := toNat_of_isDigit h
  rw [Unicode.isWhiteSpace, Bool.eq_false_iff, ne_eq, CodeSet.contains_iff]
  simp only [Unicode.whiteSpace, List.mem_cons, List.not_mem_nil, or_false, CodeRange.Has,
    exists_eq_or_imp, exists_eq_left]
  omega

/-- The counts from here on are refused. -/
def countLimit : Nat := 0x100000000

theorem count?_digits (n : Digits) {c : Char} (hc : c = '}' ∨ c = ',') (rest : List Char) :
    Lexeme.count? (n.1 ++ c :: rest) =
      if n.value < countLimit then some (n.value, c :: rest) else none := by
  obtain ⟨ds, hne, hdigits⟩ := n
  obtain ⟨d, more, rfl⟩ := List.exists_cons_of_ne_nil hne
  have hend : ¬ c.isDigit = true ∧ ¬ Unicode.isWhiteSpace c = true := by
    rcases hc with rfl | rfl <;> decide
  have hspace := isWhiteSpace_digit (hdigits d List.mem_cons_self)
  have hstart : (d :: more ++ c :: rest).dropWhile Unicode.isWhiteSpace =
      d :: more ++ c :: rest := by
    rw [List.cons_append, List.dropWhile_cons_of_neg (by rw [hspace]; decide)]
  unfold Lexeme.count?
  simp only [hstart]
  rw [List.takeWhile_append_of_pos hdigits, List.dropWhile_append_of_pos hdigits,
    List.takeWhile_cons_of_neg hend.1, List.dropWhile_cons_of_neg hend.1,
    List.dropWhile_cons_of_neg hend.2, List.append_nil]
  simp only [List.isEmpty_cons, Bool.false_eq_true, false_or]
  by_cases hn : Digits.value ⟨d :: more, hne, hdigits⟩ < countLimit
  · rw [if_pos hn]
    exact if_neg (Nat.not_le.2 hn)
  · rw [if_neg hn]
    exact if_pos (Nat.not_lt.1 hn)

theorem repetition_greedy (least : Nat) (most : Option Nat) {rest : List Char}
    (h : rest.head? ≠ some '?') :
    Lexeme.repetition least most rest = (.rep least most true, rest) := by
  unfold Lexeme.repetition
  split
  · exact absurd rfl h
  · rfl

end Quantifiers

end JsonRules.Pattern.Linear

namespace JsonRules.Pattern

open Linear
open Unicode (CodeSet)

namespace Quantifier

def isReadable : Quantifier → Bool
  | star | plus | optional => true
  | exactly n | atLeast n => n.value < countLimit
  | between n m _ => n.value < countLimit && m.value < countLimit

def mark (reluctant : Bool) : List Char := if reluctant then ['?'] else []

theorem repetition_mark (q : Quantifier) (reluctant : Bool) {rest : List Char}
    (h : reluctant = false → rest.head? ≠ some '?') :
    Lexeme.repetition q.least q.most (mark reluctant ++ rest) =
      (.rep q.least q.most !reluctant, rest) := by
  cases reluctant with
  | true => rfl
  | false => exact repetition_greedy _ _ (h rfl)

theorem bounds?_exactly (n : Digits) (rest : List Char) :
    Lexeme.bounds? (n.1 ++ '}' :: rest) =
      if n.value < countLimit then some ((n.value, some n.value), rest) else none := by
  unfold Lexeme.bounds?
  rw [count?_digits n (.inl rfl)]
  split <;> rfl

theorem bounds?_atLeast (n : Digits) (rest : List Char) :
    Lexeme.bounds? (n.1 ++ ',' :: '}' :: rest) =
      if n.value < countLimit then some ((n.value, none), rest) else none := by
  unfold Lexeme.bounds?
  rw [count?_digits n (.inr rfl)]
  split <;> rfl

theorem bounds?_between {n m : Digits} (le : n.value ≤ m.value) (rest : List Char) :
    Lexeme.bounds? (n.1 ++ ',' :: (m.1 ++ '}' :: rest)) =
      if n.value < countLimit && m.value < countLimit then some ((n.value, some m.value), rest)
      else none := by
  have hbrace : ∀ cs, m.1 ++ '}' :: rest ≠ '}' :: cs := by
    intro cs heq
    obtain ⟨d, more, hm⟩ := List.exists_cons_of_ne_nil m.2.1
    rw [hm] at heq
    have hdigit := m.2.2 d (hm ▸ List.mem_cons_self)
    rw [(List.cons.inj heq).1] at hdigit
    cases hdigit
  have hm := count?_digits m (.inl rfl) rest
  unfold Lexeme.bounds?
  rw [count?_digits n (.inr rfl)]
  by_cases hn : n.value < countLimit
  · simp only [hn, if_true, Option.bind_eq_bind, Option.bind_some, decide_true, Bool.true_and]
    rw [hm]
    by_cases hm' : m.value < countLimit
    · simp [hm', Nat.not_lt.2 le]
    · simp [hm']
  · simp [hn]

/-- A quantifier is read, unless it is refused for its counts. -/
theorem lexemeText (q : Quantifier) (reluctant : Bool) {rest : List Char}
    (h : reluctant = false → rest.head? ≠ some '?') :
    LexemeText (q.text ++ mark reluctant) q.isReadable [.rep q.least q.most !reluctant] rest := by
  have hmark := q.repetition_mark reluctant h
  -- a counted quantifier is read by its bounds
  have hcounted : ∀ cs, Lexeme.bounds? (cs ++ mark reluctant ++ rest) =
      (if q.isReadable then some ((q.least, q.most), mark reluctant ++ rest) else none) →
      LexemeText ('{' :: cs ++ mark reluctant) q.isReadable [.rep q.least q.most !reluctant]
        rest := by
    intro cs hbounds
    rw [List.cons_append]
    refine .one? ?_
    rw [Lexeme.next?, hbounds]
    cases q.isReadable with
    | false => rfl
    | true => exact congrArg some hmark
  cases q with
  | star | plus | optional => exact .one (congrArg some hmark)
  | exactly n =>
    refine hcounted (n.1 ++ ['}']) ?_
    simpa [isReadable, least, most] using bounds?_exactly n (mark reluctant ++ rest)
  | atLeast n =>
    refine hcounted (n.1 ++ [',', '}']) ?_
    simpa [isReadable, least, most] using bounds?_atLeast n (mark reluctant ++ rest)
  | between n m le =>
    refine hcounted (n.1 ++ ',' :: m.1 ++ ['}']) ?_
    simpa [isReadable, least, most] using bounds?_between le (mark reluctant ++ rest)

end Quantifier

section Groups

theorem flatMap_raw (cs : List Char) : (cs.map Token.raw).flatMap (Token.text .linear) = cs := by
  rw [List.flatMap_map]
  exact List.flatMap_singleton' cs

/-- The name has no `$`. -/
def GroupName.isReadable (n : GroupName) : Bool := n.chars.all (· != '$')

/-- Without a `?` after it a parenthesis opens a group that has no name. -/
theorem group?_plain {cs : List Char} (h : cs.head? ≠ some '?') :
    Lexeme.group? cs = some (.openGroup none, cs) := by
  unfold Lexeme.group?
  split
  · exact absurd rfl h
  · exact absurd rfl h
  · exact absurd rfl h
  · exact absurd rfl h
  · rfl

theorem isNameChar_continues {c : Char} (h : c.isAlphanum = true ∨ c = '_' ∨ c = '$') :
    Lexeme.isNameChar false c = (c != '$') := by
  rcases h with halnum | rfl | rfl
  · have hne : (c != '$') = true := bne_iff_ne.2 fun heq => by rw [heq] at halnum; cases halnum
    rw [hne, Lexeme.isNameChar, Unicode.isAlphanumeric, halnum]
    simp
  · rfl
  · rfl

theorem isName_chars (n : GroupName) : Lexeme.isName n.chars = n.isReadable := by
  have hfirst : Lexeme.isNameChar true n.first = (n.first != '$') := by
    rcases n.starts with halpha | heq | heq
    · have hne : (n.first != '$') = true :=
        bne_iff_ne.2 fun heq => by rw [heq] at halpha; cases halpha
      rw [hne, Lexeme.isNameChar, Unicode.isAlphabetic, halpha]
      simp
    · rw [heq]; rfl
    · rw [heq]; rfl
  have hrest : n.rest.all (Lexeme.isNameChar false) = n.rest.all (· != '$') := by
    rw [Bool.eq_iff_iff, List.all_eq_true, List.all_eq_true]
    exact forall₂_congr fun c hc => by rw [isNameChar_continues (n.continues c hc)]
  rw [GroupName.chars, Lexeme.isName, hfirst, hrest]
  rfl

namespace GroupKind

def isReadable : GroupKind → Bool
  | named name => name.isReadable
  | _ => true

def lexeme : GroupKind → Lexeme
  | named name => .openGroup (some name.chars)
  | _ => .openGroup none

def rendered (kind : GroupKind) : List Char := kind.tokens.flatMap (Token.text .linear)

theorem rendered_plain : rendered plain = ['(', '?', ':'] := by decide

theorem rendered_named (name : GroupName) :
    rendered (named name) = '(' :: '?' :: 'P' :: '<' :: (name.chars ++ ['>']) := by
  have hopen : (Token.group .named).text .linear = ['(', '?', 'P', '<'] := by decide
  rw [rendered, tokens, List.flatMap_cons, List.flatMap_append, flatMap_raw, hopen]
  rfl

theorem lexemeText (kind : GroupKind) {rest : List Char} (h : rest.head? ≠ some '?') :
    LexemeText kind.rendered kind.isReadable [kind.lexeme] rest := by
  cases kind with
  | capturing => exact .char (group?_plain h)
  | plain =>
    rw [rendered_plain]
    exact .one rfl
  | named name =>
    have hstop : '>' ∉ name.chars := fun h => absurd (name.mem_chars h) (by decide)
    rw [rendered_named]
    refine .one? ?_
    have hname := before?_append hstop rest
    rw [Lexeme.next?, List.cons_append, List.cons_append, List.cons_append, List.append_assoc]
    simp only [Lexeme.group?, List.singleton_append, hname, Option.bind_eq_bind, Option.bind_some,
      isName_chars]
    rfl

end GroupKind

end Groups

section Patterns

/-- The text of an assertion is written in so many levels. -/
def assertionLevels : Assertion → Nat
  | .wordBoundary => 1
  | _ => 0

theorem lexemeText_assertion (a : Assertion) (rest : List Char) :
    LexemeText ((assertionTokens a).flatMap (Token.text .linear)) true
      [.assert a (assertionLevels a)] rest := by
  cases a with
  | start => exact .char rfl
  | stop => exact .char rfl
  | wordBoundary =>
    have htext : (assertionTokens .wordBoundary).flatMap (Token.text .linear) =
        ['(', '?', '-', 'u', ':', '\\', 'b', ')'] := by decide
    rw [htext]
    exact .one rfl

theorem CharClass.isExplicit_items (c : CharClass) : ∀ i ∈ c.items, i.IsExplicit :=
  c.forall_items trivial fun m _ => by cases m <;> trivial

namespace CharSource

def chars : CharSource → CodeSet
  | raw c _ => single c.toNat
  | escape e => codeChars e.code
  | dot => classChars true lineEnds
  | set named complement => classChars complement (ClassItem.ranges (.set named.codes))
  | cls c => classChars c.negated (c.items.flatMap ClassItem.ranges)

def levels : CharSource → Nat
  | raw _ _ => 0
  | escape e => codeLevels e.code
  | dot => classLevels lineEnds
  | set named _ => classLevels (ClassItem.ranges (.set named.codes))
  | cls c => classLevels (c.items.flatMap ClassItem.ranges)

def rendered (c : CharSource) : List Char := c.token.text .linear

theorem lexemeText (c : CharSource) (rest : List Char) :
    LexemeText c.rendered true [.set c.chars c.levels] rest := by
  cases c with
  | raw c plain =>
    have hmarks : ∀ c ∈ lexemeMarks, c ∈ reserved := by simp [lexemeMarks, reserved]
    exact .char (next?_plain (mt (hmarks c) plain) rest)
  | escape e => exact lexemeText_code e.code rest
  | dot => exact lexemeText_dot rest
  | set named complement => exact lexemeText_set complement named rest
  | cls c => exact lexemeText_class c.isExplicit_items c.negated rest

theorem rendered_cons (c : CharSource) : ∃ x xs, c.rendered = x :: xs ∧ x ≠ '?' := by
  have hclass : ∀ negated items, ∃ xs, classText negated items = '[' :: xs := by
    intro negated items
    rw [classText]
    split
    · cases negated with
      | true => exact ⟨_, anyText_eq⟩
      | false => exact ⟨_, noneText_eq⟩
    · exact ⟨_, rfl⟩
  cases c with
  | raw c plain => exact ⟨c, [], rfl, fun hc => plain (hc ▸ by decide)⟩
  | escape e =>
    have htext : rendered (escape e) = codeText e.code := rfl
    rw [htext, codeText]
    split
    · exact ⟨_, _, noneText_eq, by decide⟩
    · simp only
      split
      · exact ⟨_, _, rfl, by decide⟩
      · split
        · exact ⟨_, _, rfl, by decide⟩
        · next hmeta => exact ⟨_, _, rfl, fun hc => hmeta (hc ▸ by decide)⟩
  | dot => exact ⟨'[', dotText.tail, by decide, by decide⟩
  | set named complement => exact ⟨'[', _, rfl, by decide⟩
  | cls c =>
    obtain ⟨xs, hxs⟩ := hclass c.negated c.items
    exact ⟨'[', xs, hxs, by decide⟩

end CharSource

namespace Source

def rendered {l : Level} (s : Source l) : List Char := s.tokens.flatMap (Token.text .linear)

/-- The linear matcher reads all counts and all names of the pattern. -/
def isReadable : {l : Level} → Source l → Bool
  | _, char _ => true
  | _, group kind body => kind.isReadable && body.isReadable
  | _, assertion _ => true
  | _, once a => a.isReadable
  | _, repeated a q _ => a.isReadable && q.isReadable
  | _, empty => true
  | _, seq t rest => t.isReadable && rest.isReadable
  | _, last a => a.isReadable
  | _, alt a rest => a.isReadable && rest.isReadable

def lexemes : {l : Level} → Source l → List Lexeme
  | _, char c => [.set c.chars c.levels]
  | _, group kind body => kind.lexeme :: (body.lexemes ++ [.closeGroup])
  | _, assertion a => [.assert a (assertionLevels a)]
  | _, once a => a.lexemes
  | _, repeated a q reluctant => a.lexemes ++ [.rep q.least q.most !reluctant]
  | _, empty => []
  | _, seq t rest => t.lexemes ++ rest.lexemes
  | _, last a => a.lexemes
  | _, alt a rest => a.lexemes ++ .bar :: rest.lexemes

theorem rendered_char (c : CharSource) : (char c).rendered = c.rendered := by
  simp [rendered, tokens, CharSource.rendered]

theorem rendered_group (kind : GroupKind) (body : Source .disjunction) :
    (group kind body).rendered = kind.rendered ++ (body.rendered ++ [')']) := by
  simp [rendered, tokens, GroupKind.rendered, Token.text]

theorem rendered_repeated (a : Source .atom) (q : Quantifier) (reluctant : Bool) :
    (repeated a q reluctant).rendered = a.rendered ++ (q.text ++ Quantifier.mark reluctant) := by
  rw [rendered, tokens, List.flatMap_append, flatMap_raw]
  rfl

theorem rendered_seq (t : Source .term) (more : Source .alternative) :
    (seq t more).rendered = t.rendered ++ more.rendered := by
  simp [rendered, tokens]

theorem rendered_alt (a : Source .alternative) (more : Source .disjunction) :
    (alt a more).rendered = a.rendered ++ (['|'] ++ more.rendered) := by
  simp [rendered, tokens, Token.text]

theorem rendered_atom (a : Source .atom) : ∃ x xs, a.rendered = x :: xs ∧ x ≠ '?' := by
  cases a with
  | char c => rw [rendered_char]; exact c.rendered_cons
  | group kind body =>
    have hopen : ∃ xs, kind.rendered = '(' :: xs := by
      cases kind with
      | capturing => exact ⟨[], rfl⟩
      | plain => exact ⟨_, GroupKind.rendered_plain⟩
      | named name => exact ⟨_, GroupKind.rendered_named name⟩
    obtain ⟨xs, hxs⟩ := hopen
    rw [rendered_group, hxs]
    exact ⟨'(', _, rfl, by decide⟩

/-- No part of a pattern begins like a quantifier for the matcher. -/
theorem head_rendered {l : Level} (s : Source l) : s.rendered.head? ≠ some '?' := by
  have hatom : ∀ (a : Source .atom) cs, (a.rendered ++ cs).head? ≠ some '?' := by
    intro a cs
    obtain ⟨x, xs, hx, hne⟩ := rendered_atom a
    rw [hx]
    exact fun h => hne (Option.some.inj h)
  induction s with
  | char c => simpa using hatom (char c) []
  | group kind body => simpa using hatom (group kind body) []
  | assertion a =>
    cases a with
    | start | stop => exact fun h => absurd (Option.some.inj h) (by decide)
    | wordBoundary => decide
  | once a ih => exact ih
  | repeated a q reluctant => rw [rendered_repeated]; exact hatom a _
  | empty => exact nofun
  | seq t more iht ihmore => rw [rendered_seq]; exact head_append iht ihmore
  | last a ih => exact ih
  | alt a more iha _ =>
    rw [rendered_alt]
    exact head_append iha fun hc => absurd (Option.some.inj hc) (by decide)

/-- A pattern is read as its lexemes, unless a count or a name in it is refused. Only what may end
with a quantifier must not be followed by a `?`. -/
theorem lexemeText {l : Level} (s : Source l) {rest : List Char}
    (h : l = .atom ∨ rest.head? ≠ some '?') :
    LexemeText s.rendered s.isReadable s.lexemes rest := by
  induction s generalizing rest with
  | char c => rw [rendered_char]; exact c.lexemeText rest
  | group kind body ih =>
    have hclose : LexemeText [')'] true [.closeGroup] rest := .char rfl
    have hhead : (body.rendered ++ [')'] ++ rest).head? ≠ some '?' := by
      rw [List.append_assoc]
      exact head_append body.head_rendered fun hc => absurd (Option.some.inj hc) (by decide)
    have hbody := (ih (.inr (by simp))).append hclose
    rw [Bool.and_true] at hbody
    rw [rendered_group]
    exact (kind.lexemeText hhead).append hbody
  | assertion a => exact lexemeText_assertion a rest
  | once a ih => exact ih (.inl rfl)
  | repeated a q reluctant ih =>
    rw [rendered_repeated]
    exact (ih (.inl rfl)).append (q.lexemeText reluctant fun _ => h.resolve_left (by simp))
  | empty => exact .nil rest
  | seq t more iht ihmore =>
    have hrest := h.resolve_left (by simp)
    rw [rendered_seq]
    exact (iht (.inr (head_append more.head_rendered hrest))).append (ihmore (.inr hrest))
  | last a ih => exact ih (.inr (h.resolve_left (by simp)))
  | alt a more iha ihmore =>
    have hrest := h.resolve_left (by simp)
    have hbar : LexemeText ['|'] true [.bar] (more.rendered ++ rest) := .char rfl
    have hmore := hbar.append (ihmore (.inr hrest))
    rw [rendered_alt]
    exact (iha (.inr (by simp))).append hmore

end Source

end Patterns

end JsonRules.Pattern
