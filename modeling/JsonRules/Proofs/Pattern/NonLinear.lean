import JsonRules.Pattern.NonLinear
import JsonRules.Proofs.Pattern.Splitting

/-!
# The tokens that need backtracking

The scanner flags a token that looks around or refers back. A text is `NonLinear` exactly if one of
its tokens is flagged: a token takes a whole escape, a whole class or single characters, and what it
takes after its first two characters holds no mark.
-/

namespace JsonRules.Pattern

variable {c : Char} {cs mid rest other : List Char}

section Marks

theorem mem_digits_iff :
    c ∈ ['1', '2', '3', '4', '5', '6', '7', '8', '9'] ↔ '1' ≤ c ∧ c ≤ '9' := by
  refine ⟨fun h => ?_, fun ⟨hlo, hhi⟩ => ?_⟩
  · simp only [List.mem_cons, List.not_mem_nil, or_false] at h
    rcases h with rfl | rfl | rfl | rfl | rfl | rfl | rfl | rfl | rfl <;> decide
  · have hall : ∀ n : Fin 58, '1' ≤ Char.ofNat n →
        Char.ofNat n ∈ ['1', '2', '3', '4', '5', '6', '7', '8', '9'] := by decide
    have hdigit := hall ⟨c.toNat, Nat.lt_succ_of_le hhi⟩
    rw [Char.ofNat_toNat] at hdigit
    exact hdigit hlo

/-- The escapes that start with a mark. -/
theorem beginsWith_escape : BeginsWith nonLinearMarks ('\\' :: c :: cs) ↔
    (c = 'k' ∧ cs.head? = some '<') ∨ c = 'B' ∨ ('1' ≤ c ∧ c ≤ '9') := by
  rw [← mem_digits_iff]
  cases cs <;> simp [BeginsWith, nonLinearMarks, lookMarks, @eq_comm _ c, @eq_comm _ '<']

theorem not_beginsWith_escape (h : c ≠ 'k' ∧ c ≠ 'B' ∧ ¬ ('1' ≤ c ∧ c ≤ '9')) (cs : List Char) :
    ¬ BeginsWith nonLinearMarks ('\\' :: c :: cs) := by
  rw [beginsWith_escape, not_or, not_or]
  exact ⟨fun hk => h.1 hk.1, h.2⟩

/-- A group starts with a mark only if it is a special one. -/
theorem not_beginsWith_paren (h : cs.head? ≠ some '?') :
    ¬ BeginsWith nonLinearMarks ('(' :: cs) := by
  cases cs with
  | nil => simp [BeginsWith, nonLinearMarks, lookMarks]
  | cons c cs =>
    have hc : '?' ≠ c := fun heq => h (congrArg some heq.symm)
    simp [BeginsWith, nonLinearMarks, lookMarks, hc]

/-- Only an escape or a group starts with a mark. -/
theorem not_beginsWith (h : c ≠ '\\' ∧ c ≠ '(') (cs : List Char) :
    ¬ BeginsWith nonLinearMarks (c :: cs) := by
  simp [BeginsWith, nonLinearMarks, lookMarks, Ne.symm h.1, Ne.symm h.2]

end Marks

section Inversion

/-- An escape has one end, and so has a class. -/
theorem AfterEscape.unique (h : AfterEscape cs rest) (h' : AfterEscape cs other) :
    rest = other := by
  cases h with
  | char plain =>
    cases h' with
    | char => rfl
    | named isProperty => exact absurd isProperty (not_or.2 plain)
    | short isProperty => exact absurd isProperty (not_or.2 plain)
  | @named letter name _ isProperty closed =>
    generalize htext : letter :: '{' :: (name ++ '}' :: rest) = text at h'
    cases h' with
    | char plain =>
      cases htext
      exact absurd isProperty (not_or.2 plain)
    | @named _ name' _ _ closed' =>
      -- both names end at the first brace
      have hname := congrArg (before? '}') (List.cons.inj (List.cons.inj htext).2).2
      rw [before?_append closed, before?_append closed'] at hname
      exact congrArg Prod.snd (Option.some.inj hname)
    | short _ unnamed =>
      cases htext
      exact absurd rfl unnamed
  | short isProperty unnamed =>
    cases h' with
    | char plain => exact absurd isProperty (not_or.2 plain)
    | named => exact absurd rfl unnamed
    | short => rfl

theorem AfterClass.unique (h : AfterClass cs rest) (h' : AfterClass cs other) : rest = other := by
  induction h with
  | close =>
    cases h' with
    | close => rfl
    | char plain => exact absurd rfl plain.1
  | char plain _ ih =>
    cases h' with
    | close => exact absurd rfl plain.1
    | char _ more => exact ih more
    | escape => exact absurd rfl plain.2
  | escape escaped _ ih =>
    cases h' with
    | char plain => exact absurd rfl plain.2
    | escape escaped' more =>
      obtain rfl := escaped.unique escaped'
      exact ih more

theorem nonLinear_nil : ¬ NonLinear [] := by
  intro h
  cases h with
  | here mark => simp [BeginsWith, nonLinearMarks, lookMarks] at mark

theorem nonLinear_char (plain : c ≠ '\\' ∧ c ≠ '[') (h : ¬ BeginsWith nonLinearMarks (c :: cs)) :
    NonLinear (c :: cs) ↔ NonLinear cs := by
  refine ⟨fun hnon => ?_, .char plain⟩
  cases hnon with
  | here mark => exact absurd mark h
  | char _ more => exact more
  | escape => exact absurd rfl plain.1
  | charClass => exact absurd rfl plain.2

theorem nonLinear_escape (escaped : AfterEscape cs rest)
    (h : ¬ BeginsWith nonLinearMarks ('\\' :: cs)) : NonLinear ('\\' :: cs) ↔ NonLinear rest := by
  refine ⟨fun hnon => ?_, .escape escaped⟩
  cases hnon with
  | here mark => exact absurd mark h
  | char plain => exact absurd rfl plain.1
  | escape escaped' more => exact escaped.unique escaped' ▸ more

theorem nonLinear_class (bracketed : AfterClass cs rest) :
    NonLinear ('[' :: cs) ↔ NonLinear rest := by
  refine ⟨fun hnon => ?_, .charClass bracketed⟩
  cases hnon with
  | here mark => exact absurd mark (not_beginsWith (by decide) cs)
  | char plain => exact absurd rfl plain.2
  | charClass bracketed' more => exact bracketed.unique bracketed' ▸ more

/-- Marks in a class are none. -/
theorem nonLinear_plain_class {body : List Char} (h : ∀ c ∈ body, c ≠ ']' ∧ c ≠ '\\') :
    NonLinear ('[' :: (body ++ ']' :: cs)) ↔ NonLinear cs := by
  refine nonLinear_class ?_
  induction body with
  | nil => exact .close
  | cons c body ih =>
    obtain ⟨hc, hbody⟩ := List.forall_mem_cons.1 h
    exact .char hc (ih hbody)

/-- An escaped parenthesis or backslash begins no mark, and neither does `\k` without a `<`. -/
theorem nonLinear_plain_escape (h : c = '(' ∨ c = '\\' ∨ (c = 'k' ∧ cs.head? ≠ some '<')) :
    NonLinear ('\\' :: c :: cs) ↔ NonLinear cs := by
  rcases h with rfl | rfl | ⟨rfl, hname⟩
  · exact nonLinear_escape (.char (by decide)) (not_beginsWith_escape (by decide) cs)
  · exact nonLinear_escape (.char (by decide)) (not_beginsWith_escape (by decide) cs)
  · refine nonLinear_escape (.char (by decide)) (mt beginsWith_escape.1 ?_)
    rintro (⟨-, hhead⟩ | h | h)
    · exact hname hhead
    · exact absurd h (by decide)
    · exact absurd h (by decide)

end Inversion

section Operands

/-- What an escape for a code point has after its first character, and the text behind it. -/
inductive Operand : List Char → List Char → Prop
  | done {cs : List Char} : Operand cs cs
  | char {c : Char} {cs rest : List Char} (plain : c ∉ special) (more : Operand cs rest) :
      Operand (c :: cs) rest
  /-- The low one of two surrogates is an escape itself. -/
  | low {cs rest : List Char} (more : Operand cs rest) : Operand ('\\' :: 'u' :: cs) rest

theorem hexDigit_not_special (d : HexDigit) : d.1 ∉ special := by
  obtain ⟨c, hc⟩ := d
  simp only [special, List.mem_cons, List.not_mem_nil, or_false]
  rintro (rfl | rfl | rfl | rfl | rfl) <;> cases hc

theorem Operand.digits (digits : List HexDigit) (more : Operand cs rest) :
    Operand (hexDigits digits ++ cs) rest := by
  induction digits with
  | nil => exact more
  | cons d digits ih => exact .char (hexDigit_not_special d) ih

theorem operand_of_bracedHex? {digits code : Nat} {r : Nat × List Char}
    (h : bracedHex? digits code cs = some r) : Operand cs r.2 := by
  induction cs generalizing digits code with
  | nil => cases h
  | cons c cs ih =>
    rw [bracedHex?] at h
    split at h
    · next hclose =>
      split at h
      · cases h
        exact .char (hclose ▸ by decide) .done
      · cases h
    · obtain ⟨d, hd, h⟩ := Option.bind_eq_some_iff.1 h
      split at h
      · cases h
      · obtain ⟨_, -, h⟩ := Option.bind_eq_some_iff.1 h
        exact .char (hexDigit_not_special ⟨c, by rw [hd]; rfl⟩) (ih h)

theorem UnicodeReads.operand {code : Nat} (h : UnicodeReads cs code rest) : Operand cs rest := by
  cases h with
  | braced read => exact .char (by decide) (operand_of_bracedHex? read)
  | unit => exact .digits _ .done
  | pair => exact .digits _ (.low (.digits _ .done))

/-- An escape for a code point takes its operand, or its letter is read again. -/
theorem CodeReads.operand {code : Nat} (h : CodeReads c cs code rest) :
    Operand cs rest ∨ (c = 'c' ∧ rest = 'c' :: cs) := by
  cases h with
  | control => exact .inl .done
  | null => exact .inl .done
  | @letter d _ isAlpha =>
    have halnum : d.isAlphanum = true := by rw [Char.isAlphanum, isAlpha, Bool.true_or]
    exact .inl (.char (isAlphanum_not_special (.inl halnum)) .done)
  | backslash => exact .inr ⟨rfl, rfl⟩
  | byte => exact .inl (.digits _ .done)
  | unicode read => exact .inl read.operand
  | identity => exact .inl .done

theorem Operand.nonLinear (h : Operand cs rest) : NonLinear cs ↔ NonLinear rest := by
  induction h with
  | done => exact Iff.rfl
  | char plain _ ih =>
    simp only [special, List.mem_cons, List.not_mem_nil, or_false, not_or] at plain
    obtain ⟨hescape, hclass, -, -, hparen⟩ := plain
    exact (nonLinear_char ⟨hescape, hclass⟩ (not_beginsWith ⟨hescape, hparen⟩ _)).trans ih
  | low _ ih =>
    exact (nonLinear_escape (.char (by decide)) (not_beginsWith_escape (by decide) _)).trans ih

theorem Operand.afterClass (h : Operand cs mid) (more : AfterClass mid rest) :
    AfterClass cs rest := by
  induction h with
  | done => exact more
  | char plain _ ih =>
    simp only [special, List.mem_cons, List.not_mem_nil, or_false, not_or] at plain
    exact .char ⟨plain.2.2.1, plain.1⟩ (ih more)
  | low _ ih => exact .escape (.char (by decide)) (ih more)

theorem PropertyReads.afterEscape {text : List Char} (h : PropertyReads c cs text rest)
    (isProperty : c = 'p' ∨ c = 'P') : AfterEscape (c :: cs) rest := by
  cases h with
  | braced closed => exact .named isProperty closed
  | short plain => exact .short isProperty plain

theorem ne_property_of_ofLetter? {read : NamedSet × Bool} (h : NamedSet.ofLetter? c = some read) :
    c ≠ 'p' ∧ c ≠ 'P' := by
  constructor <;> rintro rfl <;> cases h

end Operands

section Classes

theorem AtomReads.afterClass {a : ClassAtom} (h : AtomReads c cs a mid) (inside : c ≠ ']')
    (more : AfterClass mid rest) : AfterClass (c :: cs) rest := by
  cases h with
  | dash => exact .char ⟨inside, by decide⟩ more
  | set letter => exact .escape (.char (ne_property_of_ofLetter? letter)) more
  | backspace => exact .escape (.char (by decide)) more
  | property isProperty read => exact .escape (read.afterEscape isProperty) more
  | @code e cs _ _ _ _ noProperty read =>
    have hchar : AfterEscape (e :: cs) cs := .char (not_or.1 noProperty)
    rcases read.operand with hoperand | ⟨rfl, rfl⟩
    · exact .escape hchar (hoperand.afterClass more)
    · -- the letter that is read again is one more character of the class
      cases more with
      | char _ more => exact .escape hchar more
  | raw plain => exact .char ⟨inside, plain.2⟩ more

theorem AtomsRead.afterClass {atoms : List ClassAtom} (h : AtomsRead cs atoms rest) :
    AfterClass cs rest := by
  induction h with
  | close => exact .close
  | cons inside first _ ih => exact first.afterClass inside ih

theorem ClassTokenReads.afterClass {t : Token} (h : ClassTokenReads cs t rest) :
    AfterClass cs rest := by
  cases h with
  | @intro negated _ _ _ _ _ read =>
    cases negated with
    | false => exact read.afterClass
    | true => exact .char (by decide) read.afterClass

end Classes

section Tokens

/-- Whether a text is linear shows in the token that it starts with and in the text after that. -/
def Token.Decides (t : Token) (cs rest : List Char) : Prop :=
  NonLinear cs ↔ t.backtracks = true ∨ NonLinear rest

variable {t : Token}

theorem Token.Decides.flagged (h : t.backtracks = true) (mark : BeginsWith nonLinearMarks cs) :
    t.Decides cs rest :=
  ⟨fun _ => .inl h, fun _ => .here mark⟩

theorem Token.Decides.plain (h : t.backtracks = false) (more : NonLinear cs ↔ NonLinear rest) :
    t.Decides cs rest := by
  rw [Token.Decides, more, h]
  simp

theorem not_beginsWith_of_ofLetter? {read : NamedSet × Bool}
    (h : NamedSet.ofLetter? c = some read) (cs : List Char) :
    ¬ BeginsWith nonLinearMarks ('\\' :: c :: cs) := by
  unfold NamedSet.ofLetter? at h
  split at h
  all_goals first | exact not_beginsWith_escape (by decide) cs | cases h

/-- An escape is flagged if it starts with a mark. -/
theorem EscapeReads.decides (h : EscapeReads cs t rest) : t.Decides ('\\' :: cs) rest := by
  cases h with
  | set letter =>
    exact .plain rfl (nonLinear_escape (.char (ne_property_of_ofLetter? letter))
      (not_beginsWith_of_ofLetter? letter _))
  | boundary =>
    exact .plain rfl (nonLinear_escape (.char (by decide)) (not_beginsWith_escape (by decide) _))
  | noBoundary => exact .flagged rfl (beginsWith_escape.2 (.inr (.inl rfl)))
  | backref isDigit => exact .flagged rfl (beginsWith_escape.2 (.inr (.inr isDigit)))
  | named => exact .flagged rfl (beginsWith_escape.2 (.inl ⟨rfl, rfl⟩))
  | property isProperty read =>
    refine .plain rfl (nonLinear_escape (read.afterEscape isProperty) ?_)
    rcases isProperty with rfl | rfl <;> exact not_beginsWith_escape (by decide) _
  | @code c cs _ _ _ noBoundary noBackref noNamed noProperty read =>
    have hmark : ¬ BeginsWith nonLinearMarks ('\\' :: c :: cs) :=
      mt beginsWith_escape.1 (not_or.2 ⟨noNamed, not_or.2 ⟨noBoundary.2, noBackref⟩⟩)
    refine .plain rfl ((nonLinear_escape (.char (not_or.1 noProperty)) hmark).trans ?_)
    rcases read.operand with hoperand | ⟨-, rfl⟩
    · exact hoperand.nonLinear
    · -- the letter that is read again is no mark
      exact (nonLinear_char (by decide) (not_beginsWith (by decide) cs)).symm

/-- A special group is flagged if it starts with a mark. -/
theorem decides_groupOpening {r : GroupOpening × List Char} (h : groupOpening cs = .ok r) :
    (Token.group r.1).Decides ('(' :: '?' :: cs) r.2 := by
  have hplain : ¬ BeginsWith nonLinearMarks ('(' :: '?' :: cs) →
      (NonLinear ('(' :: '?' :: cs) ↔ NonLinear cs) := by
    intro hmark
    exact (nonLinear_char (by decide) hmark).trans
      (nonLinear_char (by decide) (not_beginsWith (by decide) _))
  unfold groupOpening at h
  split at h
  · cases h
    refine .plain rfl ((hplain ?_).trans
      (nonLinear_char (by decide) (not_beginsWith (by decide) _)))
    simp [BeginsWith, nonLinearMarks, lookMarks]
  · cases h
    exact .flagged rfl ⟨"(?=", by decide, _, rfl⟩
  · cases h
    exact .flagged rfl ⟨"(?!", by decide, _, rfl⟩
  · cases h
    exact .flagged rfl ⟨"(?<=", by decide, _, rfl⟩
  · cases h
    exact .flagged rfl ⟨"(?<!", by decide, _, rfl⟩
  · next hequals hbang =>
    cases h
    refine .plain rfl ((hplain ?_).trans
      (nonLinear_char (by decide) (not_beginsWith (by decide) _)))
    simp [BeginsWith, nonLinearMarks, lookMarks, Ne.symm hequals, Ne.symm hbang]
  · cases h

/-- A token is flagged if it starts with a mark. -/
theorem TokenReads.decides (h : TokenReads c cs t rest) : t.Decides (c :: cs) rest := by
  cases h with
  | escape read => exact read.decides
  | charClass read =>
    have hafter := read.afterClass
    cases read with
    | intro => exact .plain rfl (nonLinear_class hafter)
  | bracket => exact .plain rfl (nonLinear_char (by decide) (not_beginsWith (by decide) cs))
  | dot => exact .plain rfl (nonLinear_char (by decide) (not_beginsWith (by decide) cs))
  | group read => exact decides_groupOpening read
  | parenthesis plain => exact .plain rfl (nonLinear_char (by decide) (not_beginsWith_paren plain))
  | raw plain =>
    simp only [special, List.mem_cons, List.not_mem_nil, or_false, not_or] at plain
    exact .plain rfl (nonLinear_char ⟨plain.1, plain.2.1⟩
      (not_beginsWith ⟨plain.1, plain.2.2.2.2⟩ cs))

/-- A text is linear if none of its tokens is flagged, and only then. -/
theorem nonLinear_iff_backtracks {ts : List Token} (h : Token.scan cs = .ok ts) :
    NonLinear cs ↔ ts.any Token.backtracks = true := by
  rw [scan_eq_ok] at h
  induction h with
  | nil => simp [nonLinear_nil]
  | @cons c cs rest t us first _ ih =>
    have hdecides : NonLinear (c :: cs) ↔ t.backtracks = true ∨ NonLinear rest := first.decides
    rw [hdecides, ih, List.any_cons, Bool.or_eq_true]

end Tokens

end JsonRules.Pattern
