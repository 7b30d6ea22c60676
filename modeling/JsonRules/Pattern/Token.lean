import JsonRules.Number.Word
import JsonRules.Pattern.Error
import JsonRules.Text.Digits
import JsonRules.Unicode.CodeSet

/-!
# Tokens of a pattern

A pattern in ECMA 262 syntax is read as a list of tokens. A token is a whole escape, a whole
character class, the opening of a group, or a single character that is taken as it stands.
`Token.next` reads one token and `Token.scan` all of them; each token takes at least one
character (`length_next_le`), which is why scanning ends.
-/

namespace JsonRules.Pattern

open Unicode (CodeRange CodeSet maxCode)
open Text (hexDigit?)

inductive NamedSet where
  | digit
  | word
  | space
  deriving DecidableEq, Repr

namespace NamedSet

/-- The code points of a set, which `\s` takes from the white space and line terminators of
the pattern syntax. -/
def codes : NamedSet → CodeSet
  | digit => [⟨0x30, 0x39⟩]
  | word => [⟨0x30, 0x39⟩, ⟨0x41, 0x5A⟩, ⟨0x5F, 0x5F⟩, ⟨0x61, 0x7A⟩]
  | space => [
      ⟨0x09, 0x0D⟩, ⟨0x20, 0x20⟩, ⟨0xA0, 0xA0⟩, ⟨0x1680, 0x1680⟩, ⟨0x2000, 0x200A⟩,
      ⟨0x2028, 0x2029⟩, ⟨0x202F, 0x202F⟩, ⟨0x205F, 0x205F⟩, ⟨0x3000, 0x3000⟩,
      ⟨0xFEFF, 0xFEFF⟩]

/-- The set of a class escape's letter, and whether the letter stands for its complement. -/
def ofLetter? : Char → Option (NamedSet × Bool)
  | 'd' => some (digit, false)
  | 'D' => some (digit, true)
  | 'w' => some (word, false)
  | 'W' => some (word, true)
  | 's' => some (space, false)
  | 'S' => some (space, true)
  | _ => none

end NamedSet

/-- One member of a character class as it is written. -/
inductive ClassAtom where
  | code (code : Nat)
  /-- An unescaped `-`: a range between two code points, else itself. -/
  | dash
  | set (codes : CodeSet)
  /-- A Unicode property, with its backslash. -/
  | property (text : List Char)
  deriving DecidableEq, Repr

namespace ClassAtom

/-- The code point of an atom that can bound a range. -/
def endpoint? : ClassAtom → Option Nat
  | code c => some c
  | dash => some 0x2D
  | set _ => none
  | property _ => none

end ClassAtom

/-- One member of a character class once its ranges are joined. -/
inductive ClassItem where
  | range (lo hi : Nat)
  /-- A `-` that is itself. -/
  | dash
  | set (codes : CodeSet)
  | property (text : List Char)
  deriving DecidableEq, Repr

namespace ClassItem

def ofAtom : ClassAtom → ClassItem
  | .code c => range c c
  | .dash => dash
  | .set codes => set codes
  | .property text => property text

/-- Joins the ranges of a class from left to right. A `-` between two atoms that can bound a
range makes one of them, and any other `-` is itself. -/
def ofAtoms : List ClassAtom → Except PatternError (List ClassItem)
  | [] => .ok []
  | a :: .dash :: b :: rest =>
    match a.endpoint?, b.endpoint? with
    | some lo, some hi =>
      if hi < lo then .error .classRange else (ofAtoms rest).map (range lo hi :: ·)
    | _, _ => (ofAtoms (.dash :: b :: rest)).map (ofAtom a :: ·)
  | a :: rest => (ofAtoms rest).map (ofAtom a :: ·)

end ClassItem

/-- How a group opens that is not a plain capturing one. -/
inductive GroupOpening where
  | plain
  | named
  | lookahead (negative : Bool)
  | lookbehind (negative : Bool)
  deriving DecidableEq, Repr

inductive Token where
  /-- A character that is taken as it stands. -/
  | raw (c : Char)
  /-- A `]` outside of a class. -/
  | bracket
  /-- Any character but a line terminator. -/
  | dot
  | group (opening : GroupOpening)
  | set (named : NamedSet) (negated : Bool)
  | boundary (negated : Bool)
  | backref (digits : List Char)
  /-- A backreference by name, from the `<` to the `>`. -/
  | namedBackref (name : List Char)
  | property (text : List Char)
  | code (code : Nat)
  | charClass (negated : Bool) (items : List ClassItem)
  deriving DecidableEq, Repr

/-- Reads exactly `n` hexadecimal digits after those of `code`. -/
def hex? : Nat → Nat → List Char → Option (Nat × List Char)
  | 0, code, cs => some (code, cs)
  | n + 1, code, c :: cs => (hexDigit? c).bind fun d => hex? n (code * 16 + d) cs
  | _ + 1, _, [] => none

theorem length_hex?_le {n code : Nat} {cs : List Char} {r : Nat × List Char}
    (h : hex? n code cs = some r) : r.2.length ≤ cs.length := by
  induction n generalizing code cs with
  | zero => simp only [hex?, Option.some.injEq] at h; subst h; exact Nat.le_refl _
  | succ n ih =>
    cases cs with
    | nil => simp [hex?] at h
    | cons c cs =>
      simp only [hex?, Option.bind_eq_some_iff] at h
      obtain ⟨d, _, h⟩ := h
      exact Nat.le_trans (ih h) (Nat.le_succ _)

/-- Reads hexadecimal digits up to a closing brace; as many as `digits` says have been read into
`code` already. No code point has a value above the largest one, and no more digits are read than
can be counted. -/
def bracedHex? (digits code : Nat) : List Char → Option (Nat × List Char)
  | [] => none
  | c :: cs =>
    if c = '}' then if 0 < digits then some (code, cs) else none
    else (hexDigit? c).bind fun d =>
      if maxCode < code * 16 + d then none
      else (Word.count? digits).bind fun digits => bracedHex? digits (code * 16 + d) cs

theorem length_bracedHex?_le {digits code : Nat} {cs : List Char} {r : Nat × List Char}
    (h : bracedHex? digits code cs = some r) : r.2.length ≤ cs.length := by
  induction cs generalizing digits code with
  | nil => simp [bracedHex?] at h
  | cons c cs ih =>
    simp only [bracedHex?] at h
    split at h
    · split at h
      · simp only [Option.some.injEq] at h; subst h; exact Nat.le_succ _
      · simp at h
    · simp only [Option.bind_eq_some_iff] at h
      obtain ⟨d, _, h⟩ := h
      split at h
      · simp at h
      · simp only [Option.bind_eq_some_iff] at h
        obtain ⟨_, _, h⟩ := h
        exact Nat.le_trans (ih h) (Nat.le_succ _)

def through? (stop : Char) : List Char → Option (List Char × List Char)
  | [] => none
  | c :: cs =>
    if c = stop then some ([c], cs) else (through? stop cs).map fun r => (c :: r.1, r.2)

theorem length_through?_le {stop : Char} {cs : List Char} {r : List Char × List Char}
    (h : through? stop cs = some r) : r.2.length ≤ cs.length := by
  induction cs generalizing r with
  | nil => simp [through?] at h
  | cons c cs ih =>
    simp only [through?] at h
    split at h
    · simp only [Option.some.injEq] at h; subst h; exact Nat.le_succ _
    · simp only [Option.map_eq_some_iff] at h
      obtain ⟨s, hs, rfl⟩ := h
      have hle := ih hs
      exact Nat.le_trans hle (Nat.le_succ _)

/-- The text of a property escape after its letter: a name in braces, or one character. -/
def propertyText (letter : Char) : List Char → Except PatternError (List Char × List Char)
  | [] => .error (.invalidEscape letter)
  | c :: cs =>
    if c = '{' then
      match through? '}' cs with
      | some (name, rest) => .ok ('\\' :: letter :: '{' :: name, rest)
      | none => .error (.invalidEscape letter)
    else .ok (['\\', letter, c], cs)

theorem length_propertyText_le {letter : Char} {cs : List Char} {r : List Char × List Char}
    (h : propertyText letter cs = .ok r) : r.2.length ≤ cs.length := by
  cases cs with
  | nil => simp [propertyText] at h
  | cons c cs =>
    simp only [propertyText] at h
    split at h
    · split at h
      · rename_i name rest hr
        have hle := length_through?_le hr
        simp only [Except.ok.injEq] at h; subst h
        exact Nat.le_trans hle (Nat.le_succ _)
      · simp at h
    · simp only [Except.ok.injEq] at h; subst h; exact Nat.le_succ _

def isHighSurrogate (code : Nat) : Bool := 0xD800 ≤ code && code ≤ 0xDBFF

def isLowSurrogate (code : Nat) : Bool := 0xDC00 ≤ code && code ≤ 0xDFFF

def joinSurrogates (high low : Nat) : Nat := 0x10000 + (high - 0xD800) * 0x400 + (low - 0xDC00)

def lowEscape? : List Char → Option (Nat × List Char)
  | '\\' :: 'u' :: cs =>
    match hex? 4 0 cs with
    | some (low, rest) => if isLowSurrogate low then some (low, rest) else none
    | none => none
  | _ => none

theorem length_lowEscape?_le {cs : List Char} {r : Nat × List Char}
    (h : lowEscape? cs = some r) : r.2.length ≤ cs.length := by
  unfold lowEscape? at h
  split at h
  · split at h
    · rename_i cs _ _ rest hr
      split at h
      · simp only [Option.some.injEq] at h; subst h
        exact Nat.le_trans (length_hex?_le hr) (Nat.le_trans (Nat.le_succ _) (Nat.le_succ _))
      · simp at h
    · simp at h
  · simp at h

/-- The code point of a `\u` escape after the letter. Two escapes that make a surrogate pair
are one code point; a surrogate that is left alone stays one. -/
def unicodeEscape : List Char → Except PatternError (Nat × List Char)
  | '{' :: cs =>
    match bracedHex? 0 0 cs with
    | some r => .ok r
    | none => .error (.invalidEscape 'u')
  | cs =>
    match hex? 4 0 cs with
    | none => .error (.invalidEscape 'u')
    | some (high, rest) =>
      if isHighSurrogate high then
        match lowEscape? rest with
        | some (low, rest) => .ok (joinSurrogates high low, rest)
        | none => .ok (high, rest)
      else .ok (high, rest)

theorem length_unicodeEscape_le {cs : List Char} {r : Nat × List Char}
    (h : unicodeEscape cs = .ok r) : r.2.length ≤ cs.length := by
  unfold unicodeEscape at h
  split at h
  · split at h
    · rename_i hr
      simp only [Except.ok.injEq] at h; subst h
      exact Nat.le_trans (length_bracedHex?_le hr) (Nat.le_succ _)
    · simp at h
  · split at h
    · simp at h
    · rename_i hh
      have hle := length_hex?_le hh
      split at h
      · split at h
        · rename_i hl
          have hlow := length_lowEscape?_le hl
          simp only [Except.ok.injEq] at h; subst h
          exact Nat.le_trans hlow hle
        · simp only [Except.ok.injEq] at h; subst h; exact hle
      · simp only [Except.ok.injEq] at h; subst h; exact hle

def controlEscape? : Char → Option Nat
  | 'n' => some 0x0A
  | 'r' => some 0x0D
  | 't' => some 0x09
  | 'f' => some 0x0C
  | 'v' => some 0x0B
  | _ => none

/-- The code point of a `\c` escape after its letter. Without a letter after it, it is a
backslash, and its `c` is read again. -/
def letterEscape : List Char → Nat × List Char
  | [] => (0x5C, ['c'])
  | c :: cs => if c.isAlpha then (c.toNat % 32, cs) else (0x5C, 'c' :: c :: cs)

theorem length_letterEscape_le (cs : List Char) :
    (letterEscape cs).2.length ≤ cs.length + 1 := by
  cases cs with
  | nil => exact Nat.le_refl _
  | cons c cs =>
    simp only [letterEscape]
    split
    · simp only [List.length_cons]; omega
    · exact Nat.le_refl _

/-- The code point of an escape that stands for one, given its letter and the text after it. -/
def codeEscape (c : Char) (cs : List Char) : Except PatternError (Nat × List Char) :=
  match controlEscape? c with
  | some code => .ok (code, cs)
  | none =>
    if c = '0' ∧ (cs.head?.all fun d => !d.isDigit) then .ok (0, cs)
    else if c = 'c' then .ok (letterEscape cs)
    else if c = 'x' then
      match hex? 2 0 cs with
      | some r => .ok r
      | none => .error (.invalidEscape 'x')
    else if c = 'u' then unicodeEscape cs
    else if c.isDigit then .error (.invalidEscape c)
    else .ok (c.toNat, cs)

theorem length_codeEscape_le {c : Char} {cs : List Char} {r : Nat × List Char}
    (h : codeEscape c cs = .ok r) : r.2.length ≤ cs.length + 1 := by
  unfold codeEscape at h
  split at h
  · simp only [Except.ok.injEq] at h; subst h; exact Nat.le_succ _
  split at h
  · simp only [Except.ok.injEq] at h; subst h; exact Nat.le_succ _
  split at h
  · simp only [Except.ok.injEq] at h; subst h; exact length_letterEscape_le cs
  split at h
  · split at h
    · rename_i hr
      simp only [Except.ok.injEq] at h; subst h
      exact Nat.le_trans (length_hex?_le hr) (Nat.le_succ _)
    · simp at h
  split at h
  · exact Nat.le_trans (length_unicodeEscape_le h) (Nat.le_succ _)
  split at h
  · simp at h
  · simp only [Except.ok.injEq] at h; subst h; exact Nat.le_succ _

/-- One atom of a class after its first character `c`, which is no closing bracket. -/
def classAtom (c : Char) (cs : List Char) : Except PatternError (ClassAtom × List Char) :=
  if c = '-' then .ok (.dash, cs)
  else if c = '\\' then
    match cs with
    | [] => .error .trailingEscape
    | e :: rest =>
      match NamedSet.ofLetter? e with
      | some (s, negated) => .ok (.set (if negated then s.codes.complement else s.codes), rest)
      | none =>
        if e = 'b' then .ok (.code 0x08, rest)
        else if e = 'p' ∨ e = 'P' then
          (propertyText e rest).map fun r => (.property r.1, r.2)
        else (codeEscape e rest).map fun r => (.code r.1, r.2)
  else .ok (.code c.toNat, cs)

theorem length_map_le {α β : Type} {n : Nat} {x : Except PatternError (α × List Char)} {f : α → β}
    {r : β × List Char} (hx : ∀ s, x = .ok s → s.2.length ≤ n)
    (h : x.map (fun s => (f s.1, s.2)) = .ok r) : r.2.length ≤ n := by
  cases x with
  | error e => simp [Except.map] at h
  | ok s => simp only [Except.map, Except.ok.injEq] at h; subst h; exact hx s rfl

theorem length_classAtom_le {c : Char} {cs : List Char} {r : ClassAtom × List Char}
    (h : classAtom c cs = .ok r) : r.2.length ≤ cs.length := by
  unfold classAtom at h
  split at h
  · simp only [Except.ok.injEq] at h; subst h; exact Nat.le_refl _
  split at h
  · split at h
    · simp at h
    · split at h
      · simp only [Except.ok.injEq] at h; subst h; exact Nat.le_succ _
      · split at h
        · simp only [Except.ok.injEq] at h; subst h; exact Nat.le_succ _
        · split at h
          · exact Nat.le_trans (length_map_le (fun _ => length_propertyText_le) h) (Nat.le_succ _)
          · exact length_map_le (fun _ => length_codeEscape_le) h
  · simp only [Except.ok.injEq] at h; subst h; exact Nat.le_refl _

def classAtoms : List Char → Except PatternError (List ClassAtom × List Char)
  | [] => .error .unterminatedClass
  | c :: cs =>
    if c = ']' then .ok ([], cs)
    else
      match h : classAtom c cs with
      | .error e => .error e
      | .ok (a, rest) =>
        have : rest.length < (c :: cs).length := Nat.lt_succ_of_le (length_classAtom_le h)
        (classAtoms rest).map fun r => (a :: r.1, r.2)
termination_by cs => cs.length
decreasing_by exact this

theorem length_classAtoms_le {cs : List Char} {r : List ClassAtom × List Char}
    (h : classAtoms cs = .ok r) : r.2.length ≤ cs.length := by
  fun_induction classAtoms cs generalizing r with
  | case1 => simp at h
  | case2 => simp only [Except.ok.injEq] at h; subst h; exact Nat.le_succ _
  | case3 => simp at h
  | case4 c cs _ a rest hr this ih =>
    exact Nat.le_of_lt (Nat.lt_of_le_of_lt (length_map_le (fun _ => ih) h) this)

def classToken (cs : List Char) : Except PatternError (Token × List Char) :=
  let (negated, body) := match cs with
    | '^' :: rest => (true, rest)
    | rest => (false, rest)
  match classAtoms body with
  | .error e => .error e
  | .ok (atoms, rest) => (ClassItem.ofAtoms atoms).map fun items => (.charClass negated items, rest)

theorem length_classToken_le {cs : List Char} {r : Token × List Char}
    (h : classToken cs = .ok r) : r.2.length ≤ cs.length := by
  unfold classToken at h
  split at h
  rename_i negated body hb
  have hle : body.length ≤ cs.length := by
    split at hb
    · simp only [Prod.mk.injEq] at hb; rw [← hb.2]; exact Nat.le_succ _
    · simp only [Prod.mk.injEq] at hb; exact Nat.le_of_eq (congrArg List.length hb.2.symm)
  split at h
  · simp at h
  · rename_i atoms rest ha
    have hr := length_classAtoms_le ha
    cases hi : ClassItem.ofAtoms atoms with
    | error e => rw [hi] at h; simp [Except.map] at h
    | ok items =>
      rw [hi] at h
      simp only [Except.map, Except.ok.injEq] at h; subst h
      exact Nat.le_trans hr hle

/-- The opening of a group after its `(?`. A name is left to be read as it stands. -/
def groupOpening : List Char → Except PatternError (GroupOpening × List Char)
  | ':' :: cs => .ok (.plain, cs)
  | '=' :: cs => .ok (.lookahead false, cs)
  | '!' :: cs => .ok (.lookahead true, cs)
  | '<' :: '=' :: cs => .ok (.lookbehind false, cs)
  | '<' :: '!' :: cs => .ok (.lookbehind true, cs)
  | '<' :: c :: cs => .ok (.named, c :: cs)
  | _ => .error .invalidGroup

theorem length_groupOpening_le {cs : List Char} {r : GroupOpening × List Char}
    (h : groupOpening cs = .ok r) : r.2.length ≤ cs.length := by
  unfold groupOpening at h
  split at h <;> first
    | (simp only [Except.ok.injEq] at h; subst h; simp only [List.length_cons]; omega)
    | simp at h

def escape : List Char → Except PatternError (Token × List Char)
  | [] => .error .trailingEscape
  | c :: cs =>
    match NamedSet.ofLetter? c with
    | some (s, negated) => .ok (.set s negated, cs)
    | none =>
      if c = 'b' then .ok (.boundary false, cs)
      else if c = 'B' then .ok (.boundary true, cs)
      else if '1' ≤ c ∧ c ≤ '9' then
        .ok (.backref (c :: cs.takeWhile Char.isDigit), cs.dropWhile Char.isDigit)
      else if c = 'k' ∧ cs.head? = some '<' then
        match through? '>' cs with
        | some (name, rest) => .ok (.namedBackref name, rest)
        | none => .error (.invalidEscape 'k')
      else if c = 'p' ∨ c = 'P' then (propertyText c cs).map fun r => (.property r.1, r.2)
      else (codeEscape c cs).map fun r => (.code r.1, r.2)

theorem length_escape_le {cs : List Char} {r : Token × List Char}
    (h : escape cs = .ok r) : r.2.length ≤ cs.length := by
  unfold escape at h
  split at h
  · simp at h
  split at h
  · simp only [Except.ok.injEq] at h; subst h; exact Nat.le_succ _
  split at h
  · simp only [Except.ok.injEq] at h; subst h; exact Nat.le_succ _
  split at h
  · simp only [Except.ok.injEq] at h; subst h; exact Nat.le_succ _
  split at h
  · simp only [Except.ok.injEq] at h; subst h
    exact Nat.le_trans (List.dropWhile_suffix _).length_le (Nat.le_succ _)
  split at h
  · split at h
    · rename_i hr
      have hle := length_through?_le hr
      simp only [Except.ok.injEq] at h; subst h
      exact Nat.le_trans hle (Nat.le_succ _)
    · simp at h
  split at h
  · exact Nat.le_trans (length_map_le (fun _ => length_propertyText_le) h) (Nat.le_succ _)
  · exact length_map_le (fun _ => length_codeEscape_le) h

namespace Token

def next (c : Char) (cs : List Char) : Except PatternError (Token × List Char) :=
  if c = '\\' then escape cs
  else if c = '[' then classToken cs
  else if c = ']' then .ok (.bracket, cs)
  else if c = '.' then .ok (.dot, cs)
  else if c = '(' then
    match cs with
    | '?' :: rest => (groupOpening rest).map fun r => (.group r.1, r.2)
    | _ => .ok (.raw c, cs)
  else .ok (.raw c, cs)

/-- A token takes at least the character that it starts with. -/
theorem length_next_le {c : Char} {cs : List Char} {r : Token × List Char}
    (h : next c cs = .ok r) : r.2.length ≤ cs.length := by
  unfold next at h
  split at h
  · exact length_escape_le h
  split at h
  · exact length_classToken_le h
  split at h
  · simp only [Except.ok.injEq] at h; subst h; exact Nat.le_refl _
  split at h
  · simp only [Except.ok.injEq] at h; subst h; exact Nat.le_refl _
  split at h
  · split at h
    · exact Nat.le_trans (length_map_le (fun _ => length_groupOpening_le) h) (Nat.le_succ _)
    · simp only [Except.ok.injEq] at h; subst h; exact Nat.le_refl _
  · simp only [Except.ok.injEq] at h; subst h; exact Nat.le_refl _

def scan : List Char → Except PatternError (List Token)
  | [] => .ok []
  | c :: cs =>
    match h : next c cs with
    | .error e => .error e
    | .ok (t, rest) =>
      have : rest.length < (c :: cs).length := Nat.lt_succ_of_le (length_next_le h)
      (scan rest).map (t :: ·)
termination_by cs => cs.length
decreasing_by exact this

def backtracks : Token → Bool
  | group (.lookahead _) => true
  | group (.lookbehind _) => true
  | boundary negated => negated
  | backref _ => true
  | namedBackref _ => true
  | _ => false

end Token

end JsonRules.Pattern
