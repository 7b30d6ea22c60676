import JsonRules.Proofs.Pattern.Linear.Lexemes

/-!
# The expression of a pattern

The lexemes of a pattern are parsed into the parts that stand for its own. What one part adds to the
innermost open group does not depend on what is open around it, so that a group is parsed like the
pattern in it.
-/

namespace JsonRules.Pattern

open Linear

namespace Source

/-- The parts that a pattern is parsed into; those of a disjunction are its alternatives. -/
def parts : {l : Level} → Source l → List Part
  | _, char c => [⟨.set c.chars, c.levels⟩]
  | _, group _ body =>
    let content := OpenGroup.join .alt body.parts.reverse
    [⟨content.regex, content.levels + 1⟩]
  | _, assertion a => [⟨.assert a, assertionLevels a⟩]
  | _, once a => a.parts
  | _, repeated a q reluctant =>
    a.parts.map fun p => ⟨.rep q.least q.most (!reluctant) p.regex, p.levels + 1⟩
  | _, empty => []
  | _, seq t rest => t.parts ++ rest.parts
  | _, last a => [OpenGroup.join .seq a.parts.reverse]
  | _, alt a rest => OpenGroup.join .seq a.parts.reverse :: rest.parts

def part (s : Source .disjunction) : Part := OpenGroup.join .alt s.parts.reverse

/-- What can be repeated is one part. -/
theorem parts_atom (a : Source .atom) : ∃ p, a.parts = [p] := by
  cases a with
  | char c => exact ⟨_, rfl⟩
  | group kind body => exact ⟨_, rfl⟩

end Source

/-- What an open group is after a pattern of the level has been parsed into the parts in it. -/
def Level.Adds : Level → List Part → OpenGroup → OpenGroup → Prop
  | .disjunction, parts, g, g' =>
    g.parts = [] → g'.branch :: g'.branches = parts.reverse ++ g.branches
  | _, parts, g, g' => g' = { g with parts := parts.reverse ++ g.parts }

/-- No name is taken twice. -/
def Fresh (names : List (List Char)) (st : ParseState) : Prop :=
  (names.reverse ++ st.names).Nodup

/-- The state after the lexeme that opens a group. -/
theorem step?_open (kind : GroupKind) {st : ParseState} (h : Fresh kind.names st) :
    st.step? kind.lexeme = some ⟨st.inner :: st.outer, .start, kind.names.reverse ++ st.names⟩ := by
  cases kind with
  | capturing => rfl
  | plain => rfl
  | named name =>
    have hnew : name.chars ∉ st.names := (List.nodup_cons.1 h).1
    rw [GroupKind.lexeme, ParseState.step?, if_neg (by simpa using hnew)]
    rfl

theorem Fresh.split {xs ys : List (List Char)} {st : ParseState} (h : Fresh (xs ++ ys) st) :
    Fresh xs st ∧ (ys.reverse ++ (xs.reverse ++ st.names)).Nodup := by
  rw [Fresh, List.reverse_append, List.append_assoc] at h
  exact ⟨(List.nodup_append.1 h).2.1, h⟩

theorem foldlM_step?_append {xs ys : List Lexeme} {st st' : ParseState}
    (h : xs.foldlM ParseState.step? st = some st') :
    (xs ++ ys).foldlM ParseState.step? st = ys.foldlM ParseState.step? st' := by
  rw [List.foldlM_append, h]
  rfl

theorem foldlM_step?_cons {x : Lexeme} {xs : List Lexeme} {st st' : ParseState}
    (h : st.step? x = some st') :
    (x :: xs).foldlM ParseState.step? st = xs.foldlM ParseState.step? st' := by
  rw [List.foldlM_cons, h]
  rfl

/-- A pattern adds its parts to the innermost group and changes nothing around it. -/
theorem Source.foldlM_lexemes {l : Level} (s : Source l) {st : ParseState}
    (h : Fresh s.names st) : ∃ g, s.lexemes.foldlM ParseState.step? st =
      some ⟨st.outer, g, s.names.reverse ++ st.names⟩ ∧ l.Adds s.parts st.inner g := by
  induction s generalizing st with
  | char c => exact ⟨_, rfl, rfl⟩
  | group kind body ih =>
    obtain ⟨hkind, hbody⟩ := Fresh.split h
    have hopen : Fresh body.names
      ⟨st.inner :: st.outer, .start, kind.names.reverse ++ st.names⟩ := hbody
    obtain ⟨g, hfold, hg⟩ := ih hopen
    have hcontent : g.content = OpenGroup.join .alt body.parts.reverse := by
      rw [OpenGroup.content, hg rfl]
      exact congrArg _ (List.append_nil _)
    refine ⟨_, ?_, rfl⟩
    rw [lexemes, foldlM_step?_cons (step?_open kind hkind), foldlM_step?_append hfold, names,
      List.reverse_append, List.append_assoc, parts, ← hcontent]
    rfl
  | assertion a => exact ⟨_, rfl, rfl⟩
  | once a ih =>
    obtain ⟨g, hfold, hg⟩ := ih h
    exact ⟨g, hfold, hg⟩
  | repeated a q reluctant ih =>
    obtain ⟨g, hfold, hg⟩ := ih h
    obtain ⟨p, hp⟩ := a.parts_atom
    obtain rfl : g = { st.inner with parts := p :: st.inner.parts } := by rw [hg, hp]; rfl
    refine ⟨_, ?_, rfl⟩
    rw [lexemes, foldlM_step?_append hfold, parts, hp]
    rfl
  | empty => exact ⟨_, rfl, rfl⟩
  | seq t more iht ihmore =>
    obtain ⟨hfirst, hrest⟩ := Fresh.split h
    obtain ⟨g, hfold, rfl⟩ := iht hfirst
    have hnext : Fresh more.names ⟨st.outer, { st.inner with
      parts := t.parts.reverse ++ st.inner.parts }, t.names.reverse ++ st.names⟩ := hrest
    obtain ⟨g', hfold', rfl⟩ := ihmore hnext
    refine ⟨_, ?_, rfl⟩
    rw [lexemes, foldlM_step?_append hfold, hfold', names, parts]
    simp
  | last a ih =>
    obtain ⟨g, hfold, rfl⟩ := ih h
    refine ⟨_, hfold, fun hparts => ?_⟩
    rw [OpenGroup.branch, hparts, List.append_nil]
    rfl
  | alt a more iha ihmore =>
    obtain ⟨hfirst, hrest⟩ := Fresh.split h
    obtain ⟨g, hfold, rfl⟩ := iha hfirst
    have hnext : Fresh more.names ⟨st.outer,
      ⟨OpenGroup.join .seq (a.parts.reverse ++ st.inner.parts) :: st.inner.branches, []⟩,
      a.names.reverse ++ st.names⟩ := hrest
    obtain ⟨g', hfold', hg'⟩ := ihmore hnext
    refine ⟨g', ?_, fun hparts => ?_⟩
    · rw [lexemes, foldlM_step?_append hfold, names, List.reverse_append, List.append_assoc,
        ← hfold']
      rfl
    · rw [hg' rfl, hparts, parts]
      simp

/-- A pattern is parsed, unless its parts lie too deep in one another. -/
theorem Source.parse?_lexemes (s : Source .disjunction) (h : s.names.Nodup) :
    Regex.parse? s.lexemes = if s.part.levels ≤ nestLimit then some s.part.regex else none := by
  have hfresh : Fresh s.names .start := by
    rw [Fresh, ParseState.start, List.append_nil]
    exact List.pairwise_reverse.2 (h.imp Ne.symm)
  obtain ⟨g, hfold, hg⟩ := s.foldlM_lexemes hfresh
  have hcontent : g.content = s.part := by
    rw [OpenGroup.content, hg rfl, part]
    exact congrArg _ (List.append_nil _)
  unfold Regex.parse?
  rw [hfold]
  simp only [Option.bind_eq_bind, Option.bind_some, hcontent]
  simp [ParseState.start]

end JsonRules.Pattern
