import JsonRules.Pattern.Dialects
import JsonRules.Proofs.Pattern.Backtrack.Looks
import JsonRules.Proofs.Pattern.Composition
import JsonRules.Proofs.Pattern.Limits
import JsonRules.Proofs.Pattern.NonLinear

/-!
# The two dialects of a pattern

The scanner does not know for which matcher a pattern is written: each token takes a part of the
source, and only the token of a `\b` has two texts.
-/

namespace JsonRules.Pattern

variable {c : Char} {cs rest : List Char}

section Suffixes

theorem AfterEscape.suffix (h : AfterEscape cs rest) : rest <:+ cs := by
  cases h with
  | char => exact List.suffix_cons _ _
  | @named letter name => exact ⟨letter :: '{' :: (name ++ ['}']), by simp⟩
  | @short letter c => exact ⟨[letter, c], rfl⟩

theorem AfterClass.suffix (h : AfterClass cs rest) : rest <:+ cs := by
  induction h with
  | close => exact List.suffix_cons _ _
  | char _ _ ih => exact ih.trans (List.suffix_cons _ _)
  | escape escaped _ ih => exact (ih.trans escaped.suffix).trans (List.suffix_cons _ _)

theorem Operand.suffix (h : Operand cs rest) : rest <:+ cs := by
  induction h with
  | done => exact List.suffix_refl _
  | char _ _ ih => exact ih.trans (List.suffix_cons _ _)
  | low _ ih => exact ih.trans ⟨['\\', 'u'], rfl⟩

theorem EscapeReads.suffix {t : Token} (h : EscapeReads cs t rest) : rest <:+ cs := by
  cases h with
  | set => exact List.suffix_cons _ _
  | boundary => exact List.suffix_cons _ _
  | noBoundary => exact List.suffix_cons _ _
  | backref => exact (List.dropWhile_suffix _).trans (List.suffix_cons _ _)
  | @named name _ => exact ⟨'k' :: '<' :: (name ++ ['>']), by simp⟩
  | property isProperty read => exact (read.afterEscape isProperty).suffix
  | code _ _ _ _ _ read =>
    rcases read.operand with hoperand | ⟨rfl, rfl⟩
    · exact hoperand.suffix.trans (List.suffix_cons _ _)
    · exact List.suffix_refl _

theorem groupOpening_suffix {r : GroupOpening × List Char} (h : groupOpening cs = .ok r) :
    r.2 <:+ cs := by
  unfold groupOpening at h
  split at h
  · cases h
    exact List.suffix_cons _ _
  · cases h
    exact List.suffix_cons _ _
  · cases h
    exact List.suffix_cons _ _
  · cases h
    exact ⟨['<', '='], rfl⟩
  · cases h
    exact ⟨['<', '!'], rfl⟩
  · cases h
    exact List.suffix_cons _ _
  · cases h

/-- A token takes its first character and some of those after it. -/
theorem TokenReads.suffix {t : Token} (h : TokenReads c cs t rest) : rest <:+ cs := by
  cases h with
  | escape read => exact read.suffix
  | charClass read => exact read.afterClass.suffix
  | group read => exact (groupOpening_suffix read).trans (List.suffix_cons _ _)
  | _ => exact List.suffix_refl _

end Suffixes

section Boundary

/-- Only `\b` is read as a word boundary. -/
theorem TokenReads.of_boundary (h : TokenReads c cs (.boundary false) rest) :
    c = '\\' ∧ cs = 'b' :: rest := by
  cases h with
  | escape read =>
    cases read
    exact ⟨rfl, rfl⟩
  | charClass read => cases read

theorem Token.text_agrees {t : Token} (h : t ≠ .boundary false) :
    t.text .linear = t.text .backtracking := by
  cases t with
  | boundary negated =>
    cases negated with
    | false => exact absurd rfl h
    | true => rfl
  | _ => rfl

/-- A `\b` where a token starts is all of the token. -/
theorem TokenReads.eq_boundary {t : Token} (h : TokenReads '\\' ('b' :: cs) t rest) :
    t = .boundary false ∧ rest = cs := by
  cases next_eq_ok.2 h
  exact ⟨rfl, rfl⟩

end Boundary

section Cuts

variable {segments : List Segment}

theorem exists_cut_of_scans {ts : List Token} (h : Scans cs ts) : ∃ segments, Cut cs segments := by
  induction h with
  | nil => exact ⟨[], .nil⟩
  | @cons c cs rest t us first _ ih =>
    obtain ⟨segments, hcut⟩ := ih
    obtain ⟨taken, htaken⟩ := first.suffix
    have htext : c :: cs = (c :: taken) ++ rest := congrArg (c :: ·) htaken.symm
    exact ⟨_, .cons (next_eq_ok.2 first) htext hcut⟩

namespace Cut

theorem scans (h : Cut cs segments) : Scans cs (segments.map Segment.token) := by
  induction h with
  | nil => exact .nil
  | cons read _ _ ih => exact .cons (next_eq_ok.1 read) ih

theorem source_eq (h : Cut cs segments) : cs = segments.flatMap Segment.source := by
  induction h with
  | nil => rfl
  | cons _ taken _ ih => rw [List.flatMap_cons, ← ih, taken]

/-- Each segment is what its token takes of some text. -/
theorem reads (h : Cut cs segments) : ∀ s ∈ segments, ∃ c after rest,
    TokenReads c after s.token rest ∧ c :: after = s.source ++ rest := by
  induction h with
  | nil => exact List.forall_mem_nil _
  | cons read taken _ ih =>
    exact List.forall_mem_cons.2 ⟨⟨_, _, _, next_eq_ok.1 read, taken⟩, ih⟩

theorem source_ne_nil (h : Cut cs segments) : ∀ s ∈ segments, s.source ≠ [] := by
  intro s hs hsource
  obtain ⟨c, after, rest, hreads, htaken⟩ := h.reads s hs
  -- the token takes its first character at least
  have hle := hreads.suffix.length_le
  have hlength := congrArg List.length htaken
  rw [hsource, List.nil_append, List.length_cons] at hlength
  omega

theorem agrees (h : Cut cs segments) : ∀ s ∈ segments, s.Agrees := by
  intro s hs
  obtain ⟨c, after, rest, hreads, htaken⟩ := h.reads s hs
  obtain ⟨t, source⟩ := s
  unfold Segment.Agrees
  split
  · next hsource =>
    cases (hsource : source = ['\\', 'b'])
    cases htaken
    obtain ⟨rfl, -⟩ := hreads.eq_boundary
    exact ⟨rfl, rfl⟩
  · next hsource =>
    refine Token.text_agrees fun ht => hsource ?_
    cases (ht : t = .boundary false)
    obtain ⟨rfl, rfl⟩ := hreads.of_boundary
    exact (List.append_cancel_right htaken).symm

theorem boundary (h : Cut cs segments) : ∀ s after, s :: after <:+ segments →
    ['\\', 'b'] <+: (s :: after).flatMap Segment.source → s.source = ['\\', 'b'] := by
  induction h with
  | nil =>
    intro s after hsuffix
    cases List.suffix_nil.1 hsuffix
  | @cons c cs source rest t segments read taken more ih =>
    intro s after hsuffix hprefix
    rcases List.suffix_cons_iff.1 hsuffix with heq | hsuffix
    · cases heq
      obtain ⟨tail, htail⟩ := hprefix
      rw [List.flatMap_cons, ← more.source_eq, ← taken] at htail
      cases htail
      obtain ⟨-, rfl⟩ := (next_eq_ok.1 read).eq_boundary
      exact (List.append_cancel_right taken).symm
    · exact ih s after hsuffix hprefix

end Cut

end Cuts

section Dialects

open Backtrack (Expr)
open Linear (Assertion)

variable {source : String}

/-- A source with an error has the same one in both dialects, and is compiled in neither. -/
theorem render_error {e : PatternError} (h : Token.scan source.toList = .error e) :
    (∀ dialect, render source dialect = .error e) ∧ ∀ limits, compile limits source = .error e := by
  have hrender : ∀ dialect, render source dialect = .error e := fun dialect => by
    rw [render, h]
    rfl
  refine ⟨hrender, fun limits => ?_⟩
  rw [compile, hrender]
  rfl

theorem written_of_scan {ts : List Token} (h : Token.scan source.toList = .ok ts) :
    ∃ segments, Written source segments (ts.any Token.backtracks) := by
  obtain ⟨segments, hcut⟩ := exists_cut_of_scans (scan_eq_ok.1 h)
  have hscan : Token.scan source.toList = .ok (segments.map Segment.token) :=
    scan_eq_ok.2 hcut.scans
  obtain rfl : ts = segments.map Segment.token := by
    rw [hscan] at h
    cases h
    rfl
  have hrender : ∀ dialect, render source dialect =
      .ok ⟨segments.flatMap (Segment.text dialect),
        (segments.map Segment.token).any Token.backtracks⟩ := by
    intro dialect
    rw [render, h]
    show Except.ok (Rendering.mk _ _) = _
    rw [List.flatMap_map]
    rfl
  refine ⟨segments, hcut, hscan, hcut.source_eq, hcut.boundary,
    fun s hs => ⟨hcut.source_ne_nil s hs, hcut.agrees s hs⟩, hrender, fun limits => ?_⟩
  cases hback : (segments.map Segment.token).any Token.backtracks with
  | false => exact compile_linear (hrender .linear) hback
  | true => exact compile_backtracking (hrender .linear) hback (hrender .backtracking)

/-- The dialects agree. A source has the same error in both, or it is written for both token by
token, the same in both but for `\b`; to put that in terms of lookaround says what the boundary of
the linear matcher says, at every position of every text. -/
theorem render_dialects :
    (∀ source : String,
      (∃ e, (∀ dialect, render source dialect = .error e) ∧
        ∀ limits, compile limits source = .error e) ∨
      ∃ segments backtracking, Written source segments backtracking) ∧
    Linear.Regex.ofText? linearBoundaryText = some (.assert .wordBoundary) ∧
    ∃ boundary noBoundary, Expr.ofText? boundaryText = some boundary ∧
      Expr.ofText? noBoundaryText = some noBoundary ∧
      ∀ refs hard, ∃ program noProgram, boundary.compile? refs hard = some program ∧
        noBoundary.compile? refs hard = some noProgram ∧
        ∀ groups limit text i,
          program.runAt groups (limit + 4) text i =
            (if Assertion.wordBoundary.holds text i then .matched else .unmatched) ∧
          noProgram.runAt groups (limit + 4) text i =
            (if Assertion.wordBoundary.holds text i then .unmatched else .matched) := by
  refine ⟨fun source => ?_, by cbv, _, _, Backtrack.ofText?_boundary, Backtrack.ofText?_noBoundary,
    fun refs hard => ⟨_, _, Backtrack.compile?_sides refs hard _ _ _ _,
      Backtrack.compile?_sides refs hard _ _ _ _, fun groups limit text i => ⟨?_, ?_⟩⟩⟩
  · cases hscan : Token.scan source.toList with
    | error e => exact .inl ⟨e, render_error hscan⟩
    | ok ts =>
      obtain ⟨segments, hsegments⟩ := written_of_scan hscan
      exact .inr ⟨segments, _, hsegments⟩
  · rw [Backtrack.runAt_sides]
    exact if_congr (Backtrack.sidePasses_boundary text i) rfl rfl
  · rw [Backtrack.runAt_sides]
    exact (if_congr (Backtrack.sidePasses_noBoundary text i) rfl rfl).trans (ite_not ..)

end Dialects

end JsonRules.Pattern
