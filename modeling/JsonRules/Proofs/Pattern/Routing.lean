import JsonRules.Proofs.Pattern.Limits
import JsonRules.Proofs.Pattern.Linear.Tokens
import JsonRules.Proofs.Pattern.NonLinear

/-!
# Which matcher a pattern gets

A pattern goes to the backtracking matcher exactly if one of its marks stands outside of the
character classes. What goes to the linear matcher is written without lookaround and without
references back: the linear matcher reads each token to where a token ends, and no token that is not
flagged begins like one of these.
-/

namespace JsonRules.Pattern

namespace Linear

variable {ts : List Token}

section Reading

/-- A token that is not flagged begins a lexeme that ends where a token ends. -/
theorem lands_token {t : Token} (h : Scanned (t :: ts)) (plain : t.backtracks = false) {c : Char}
    {cs : List Char} (htext : t.text .linear ++ ts.flatMap (Token.text .linear) = c :: cs) :
    Lexer.linear.Lands .linear ts c cs := by
  cases t with
  | raw d =>
    cases htext
    exact lands_raw h
  | group opening =>
    cases opening with
    | plain =>
      have hwhole : Lexer.linear.Whole GroupOpening.plain.text (some (.openGroup none)) :=
        ⟨'(', ['?', ':'], rfl, fun _ => rfl⟩
      exact hwhole.lands htext
    | named =>
      cases htext
      exact Lexer.lands_named (fun name => .openGroup (some name)) (fun _ => rfl)
        (fun _ => backslash_not_mem_of_isName) h.2.2
    | lookahead => cases plain
    | lookbehind => cases plain
  | boundary negated =>
    obtain rfl : negated = false := plain
    have hwhole : Lexer.linear.Whole linearBoundaryText (some (.assert .wordBoundary 1)) :=
      ⟨'(', ['?', '-', 'u', ':', '\\', 'b', ')'], rfl, fun _ => rfl⟩
    exact hwhole.lands htext
  | backref => cases plain
  | namedBackref => cases plain
  | _ =>
    obtain ⟨lexeme?, hwhole⟩ := Lexer.whole_of_isSet (x := .linear) .linear h.1 rfl
    exact hwhole.lands htext

/-- Wherever the linear matcher comes to in a text of tokens that are not flagged, the text of some
of these tokens begins. -/
theorem tokens_of_reaches (h : Scanned ts) (plain : ts.any Token.backtracks = false)
    {place : List Char} (hreaches : Reaches (ts.flatMap (Token.text .linear)) place) :
    ∃ us, us <:+ ts ∧ place = us.flatMap (Token.text .linear) := by
  induction hreaches with
  | start => exact ⟨ts, List.suffix_refl ts, rfl⟩
  | @next c cs rest lexeme _ read ih =>
    obtain ⟨us, hus, htext⟩ := ih
    cases us with
    | nil => cases htext
    | cons u us =>
      have hu : u.backtracks = false := by
        simpa using List.any_eq_false.1 plain u (hus.subset List.mem_cons_self)
      obtain ⟨vs, hvs, hrest⟩ := lands_token (h.suffix hus) hu htext.symm _ _ read
      exact ⟨vs, (hvs.trans (List.suffix_cons u us)).trans hus, hrest⟩

end Reading

section Foreign

variable {c : Char} {cs : List Char}

theorem not_foreign_escape (h : c ≠ 'k' ∧ c.isDigit = false) (cs : List Char) :
    ¬ BeginsWith foreignMarks ('\\' :: c :: cs) := by
  have hdigit : ∀ d : Char, d.isDigit = true → d ≠ c := by
    rintro d hd rfl
    exact absurd (hd.symm.trans h.2) (by decide)
  simp [BeginsWith, foreignMarks, lookMarks, Ne.symm h.1, hdigit]

theorem not_foreign_char (h : c ≠ '\\') (hparen : c = '(' → cs.head? ≠ some '?') :
    ¬ BeginsWith foreignMarks (c :: cs) := by
  cases cs with
  | nil => simp [BeginsWith, foreignMarks, lookMarks, Ne.symm h]
  | cons d cs =>
    by_cases hc : '(' = c
    · have hd : '?' ≠ d := fun hd => hparen hc.symm (congrArg some hd.symm)
      simp [BeginsWith, foreignMarks, lookMarks, Ne.symm h, hd]
    · simp [BeginsWith, foreignMarks, lookMarks, Ne.symm h, hc]

theorem not_foreign_codeText (code : Nat) (cs : List Char) :
    ¬ BeginsWith foreignMarks (codeText code ++ cs) := by
  have hform := codeForm code
  generalize codeText code = text at hform
  cases hform with
  | surrogate => exact not_foreign_char (by decide) fun hc => absurd hc (by decide)
  | number => exact not_foreign_escape (by decide) _
  | @escaped c isMeta =>
    have hk : c ≠ 'k' := by
      rintro rfl
      cases isMeta
    exact not_foreign_escape ⟨hk, isDigit_of_isMeta isMeta⟩ _
  | plain isPlain =>
    refine not_foreign_char ?_ ?_
    · rintro rfl
      cases isPlain
    · rintro rfl
      cases isPlain

/-- Where a token that is not flagged begins, no assertion about the text around and no reference
back does. -/
theorem not_foreign_text (h : Scanned ts) (plain : ts.any Token.backtracks = false) :
    ¬ BeginsWith foreignMarks (ts.flatMap (Token.text .linear)) := by
  cases ts with
  | nil => simp [BeginsWith, foreignMarks, lookMarks]
  | cons t ts =>
    rw [List.flatMap_cons]
    rw [List.any_cons, Bool.or_eq_false_iff] at plain
    cases t with
    | raw c =>
      refine not_foreign_char h.1.1 fun hc => ?_
      exact head_flatMap_text .linear h.2.2 (h.2.1 (hc ▸ rfl))
    | group opening =>
      cases opening with
      | plain =>
        show ¬ BeginsWith foreignMarks ('(' :: '?' :: ':' :: _)
        simp [BeginsWith, foreignMarks, lookMarks]
      | named =>
        show ¬ BeginsWith foreignMarks ('(' :: '?' :: 'P' :: '<' :: _)
        simp [BeginsWith, foreignMarks, lookMarks]
      | lookahead => cases plain.1
      | lookbehind => cases plain.1
    | boundary negated =>
      cases negated with
      | false =>
        show ¬ BeginsWith foreignMarks ('(' :: '?' :: '-' :: _)
        simp [BeginsWith, foreignMarks, lookMarks]
      | true => cases plain.1
    | backref => cases plain.1
    | namedBackref => cases plain.1
    | property text =>
      obtain ⟨negated, tail, rfl, -⟩ := h.1.property?
      cases negated <;> exact not_foreign_escape (by decide) _
    | code code => exact not_foreign_codeText code _
    | charClass negated items =>
      obtain ⟨cs, htext, -⟩ := class?_classText h.1 negated
      rw [Token.text, htext]
      exact not_foreign_char (by decide) fun hc => absurd hc (by decide)
    | bracket => exact not_foreign_escape (by decide) _
    | set | dot => exact not_foreign_char (by decide) fun hc => absurd hc (by decide)

end Foreign

end Linear

theorem backtracking_of_render {source : String} {dialect : Dialect} {r : Rendering}
    (h : render source dialect = .ok r) : r.backtracking = true ↔ NonLinear source.toList := by
  obtain ⟨ts, hscan, rfl⟩ := map_ok h
  exact (nonLinear_iff_backtracks hscan).symm

theorem reached_of_render {source : String} {r : Rendering} (h : render source .linear = .ok r)
    (plain : r.backtracking = false) {place : List Char}
    (hreaches : Linear.Reaches r.text place) : ¬ BeginsWith foreignMarks place := by
  obtain ⟨ts, hscan, rfl⟩ := map_ok h
  have hscanned := scanned_of_scan hscan
  obtain ⟨us, hus, rfl⟩ := Linear.tokens_of_reaches hscanned plain hreaches
  have hplain : us.any Token.backtracks = false :=
    List.any_eq_false.2 fun u hu => List.any_eq_false.1 plain u (hus.subset hu)
  exact Linear.not_foreign_text (hscanned.suffix hus) hplain

namespace Matcher

variable {limits : PatternLimits} {text : List Char} {m : Matcher}

theorem isBacktracking_of_linear? (h : linear? limits text = some m) :
    m.isBacktracking = false := by
  obtain ⟨regex, -, h⟩ := Option.bind_eq_some_iff.1 h
  split at h <;> cases h
  rfl

theorem isBacktracking_of_backtracking? (h : backtracking? limits text = some m) :
    m.isBacktracking = true := by
  obtain ⟨expr, -, h⟩ := Option.bind_eq_some_iff.1 h
  obtain ⟨program, -, h⟩ := Option.bind_eq_some_iff.1 h
  cases h
  rfl

end Matcher

theorem isBacktracking_of_compile {limits : PatternLimits} {source : String} {p : Pattern}
    (h : compile limits source = .ok p) :
    p.isBacktracking = true ↔ NonLinear source.toList := by
  cases hlinear : render source .linear with
  | error e =>
    rw [compile, hlinear] at h
    cases h
  | ok r =>
    rw [← backtracking_of_render hlinear]
    cases hback : r.backtracking with
    | false =>
      rw [compile_linear hlinear hback] at h
      obtain ⟨m, hm, rfl⟩ := ofMatcher?_eq_ok.1 h
      rw [isBacktracking, Matcher.isBacktracking_of_linear? hm]
    | true =>
      cases hagain : render source .backtracking with
      | error e => simp [compile, hlinear, hback, hagain, bind, Except.bind] at h
      | ok again =>
        rw [compile_backtracking hlinear hback hagain] at h
        obtain ⟨m, hm, rfl⟩ := ofMatcher?_eq_ok.1 h
        rw [isBacktracking, Matcher.isBacktracking_of_backtracking? hm]

/-- A pattern is flagged and matched by backtracking exactly if it is not linear. In what it is
written as for the linear matcher otherwise, this one never comes to an assertion about the text
ahead or behind or to a reference back. Classes and escaped characters do not count. -/
theorem backtracking_iff_nonLinear (source : String) :
    (∀ dialect r, render source dialect = .ok r →
      (r.backtracking = true ↔ NonLinear source.toList)) ∧
    (∀ r, render source .linear = .ok r → r.backtracking = false →
      ∀ place, Linear.Reaches r.text place → ¬ BeginsWith foreignMarks place) ∧
    (∀ limits p, compile limits source = .ok p →
      (p.isBacktracking = true ↔ NonLinear source.toList)) ∧
    (∀ body rest, (∀ c ∈ body, c ≠ ']' ∧ c ≠ '\\') →
      (NonLinear ('[' :: (body ++ ']' :: rest)) ↔ NonLinear rest)) ∧
    ∀ c rest, c = '(' ∨ c = '\\' ∨ (c = 'k' ∧ rest.head? ≠ some '<') →
      (NonLinear ('\\' :: c :: rest) ↔ NonLinear rest) :=
  ⟨fun _ _ => backtracking_of_render, fun _ hr plain _ => reached_of_render hr plain,
    fun _ _ => isBacktracking_of_compile, fun _ _ => nonLinear_plain_class,
    fun _ _ => nonLinear_plain_escape⟩

/-- Marks in a class and behind backslashes. -/
def hiddenMarks : String := "[(?=]\\(?=x\\)\\\\1\\k"

theorem backtracking_hiddenMarks :
    (∃ r p, render hiddenMarks .linear = .ok r ∧ r.backtracking = false ∧
      compile .default hiddenMarks = .ok p ∧ p.isBacktracking = false ∧
      ∀ place, Linear.Reaches r.text place → ¬ BeginsWith foreignMarks place) ∧
    ∃ r, render "\\\\(?=x)" .linear = .ok r ∧ r.backtracking = true ∧
      NonLinear "\\\\(?=x)".toList := by
  let tokens : List Token := [.charClass false [.range 0x28 0x28, .range 0x3F 0x3F,
    .range 0x3D 0x3D], .code 0x28, .raw '?', .raw '=', .raw 'x', .code 0x29, .code 0x5C, .raw '1',
    .code 0x6B]
  have hscan : Token.scan hiddenMarks.toList = .ok tokens := by decide +kernel
  have hrender : render hiddenMarks .linear = .ok (.ofTokens .linear tokens) := by
    rw [render, hscan]
    rfl
  obtain ⟨m, hm⟩ : ∃ m, Matcher.linear? .default (Rendering.ofTokens .linear tokens).text =
      some m := by
    have htext : (Rendering.ofTokens .linear tokens).text =
        "[\\x\x7b28\x7d\\x\x7b3F\x7d\\x\x7b3D\x7d]\\(?=x\\)\\\\1k".toList := by
      decide +kernel
    rw [htext]
    exact Option.isSome_iff_exists.1 (by cbv)
  have hp : compile .default hiddenMarks = .ok ⟨hiddenMarks, m⟩ := by
    rw [compile_linear hrender rfl, hm]
    rfl
  obtain ⟨hflag, hreached, hengine, -, -⟩ := backtracking_iff_nonLinear hiddenMarks
  have hplain : ¬ NonLinear hiddenMarks.toList := fun hnon =>
    absurd ((hflag _ _ hrender).2 hnon) (by decide)
  -- behind an escaped backslash, a lookahead is one
  have hshown : Token.scan "\\\\(?=x)".toList =
      .ok [.code 0x5C, .group (.lookahead false), .raw 'x', .raw ')'] := by decide +kernel
  have hlook : render "\\\\(?=x)" .linear = .ok (.ofTokens .linear
      [.code 0x5C, .group (.lookahead false), .raw 'x', .raw ')']) := by
    rw [render, hshown]
    rfl
  exact ⟨⟨_, _, hrender, rfl, hp, Bool.eq_false_iff.2 (mt (hengine _ _ hp).1 hplain),
    hreached _ hrender rfl⟩, _, hlook, rfl,
    ((backtracking_iff_nonLinear "\\\\(?=x)").1 _ _ hlook).1 rfl⟩

end JsonRules.Pattern
