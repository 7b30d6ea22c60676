import JsonRules.Proofs.Pattern.Backtrack.Budget

/-!
# Patterns under raised limits

A pattern that is compiled under some limits is compiled under higher ones, to the same matcher but
for the steps back that it may take. It answers whatever it answered before.
-/

namespace JsonRules.Pattern

namespace Matcher

/-- The matcher where no fewer steps back than the given number are allowed. -/
def raise (steps : Nat) : Matcher → Matcher
  | linear regex => linear regex
  | backtracking program groups limit => backtracking program groups (max limit steps)

theorem isMatch_raise {m : Matcher} {text : List Char} {answer : Bool} (steps : Nat)
    (h : m.isMatch text = .ok answer) : (m.raise steps).isMatch text = .ok answer := by
  cases m with
  | linear regex => exact h
  | backtracking program groups limit =>
    have hne : program.search groups limit text ≠ .stopped := by
      intro hstop
      rw [isMatch, hstop] at h
      cases h
    rw [raise, isMatch, program.search_mono groups (Nat.le_max_left limit steps) text hne]
    exact h

section Raise

variable {limits other : PatternLimits} {text : List Char} {m : Matcher}

theorem linear?_raise (hsize : limits.size ≤ other.size) (h : linear? limits text = some m) :
    linear? other text = some (m.raise other.steps) := by
  obtain ⟨regex, hregex, h⟩ := Option.bind_eq_some_iff.1 h
  split at h
  · next hfits =>
    cases h
    rw [linear?, hregex, Option.bind_eq_bind, Option.bind_some,
      if_pos (Linear.Regex.fits_mono hsize hfits)]
    rfl
  · cases h

theorem backtracking?_raise (hsteps : limits.steps ≤ other.steps)
    (h : backtracking? limits text = some m) :
    backtracking? other text = some (m.raise other.steps) := by
  obtain ⟨expr, hexpr, h⟩ := Option.bind_eq_some_iff.1 h
  obtain ⟨program, hprogram, h⟩ := Option.bind_eq_some_iff.1 h
  cases h
  rw [backtracking?, hexpr, Option.bind_eq_bind, Option.bind_some, hprogram, raise,
    Nat.max_eq_right hsteps]
  rfl

end Raise

end Matcher

section Compile

variable {limits : PatternLimits} {source : String} {rendering other : Rendering}

/-- A matcher with the source that it was compiled from, unless it was refused. -/
def ofMatcher? (source : String) (m? : Option Matcher) : Except PatternError Pattern :=
  m?.elim (.error .refused) fun m => .ok ⟨source, m⟩

theorem ofMatcher?_eq_ok {m? : Option Matcher} {p : Pattern} :
    ofMatcher? source m? = .ok p ↔ ∃ m, m? = some m ∧ p = ⟨source, m⟩ := by
  cases m? <;> simp [ofMatcher?, eq_comm]

theorem compile_linear (rendered : render source .linear = .ok rendering)
    (plain : rendering.backtracking = false) :
    compile limits source = ofMatcher? source (Matcher.linear? limits rendering.text) := by
  simp only [compile, rendered, plain, bind, Except.bind, pure, Except.pure]
  cases Matcher.linear? limits rendering.text <;> rfl

theorem compile_backtracking (rendered : render source .linear = .ok rendering)
    (hard : rendering.backtracking = true) (again : render source .backtracking = .ok other) :
    compile limits source = ofMatcher? source (Matcher.backtracking? limits other.text) := by
  simp only [compile, rendered, hard, again, bind, Except.bind, pure, Except.pure]
  cases Matcher.backtracking? limits other.text <;> rfl

/-- Which matcher a source needs, and for which text, does not depend on the limits. -/
theorem matcher_of_compile {p : Pattern} (h : compile limits source = .ok p) :
    ∃ text, (∀ other, compile other source = ofMatcher? source (Matcher.linear? other text)) ∨
      ∀ other, compile other source = ofMatcher? source (Matcher.backtracking? other text) := by
  cases hlinear : render source .linear with
  | error e => rw [compile, hlinear] at h; cases h
  | ok rendering =>
    cases hback : rendering.backtracking with
    | false => exact ⟨rendering.text, .inl fun _ => compile_linear hlinear hback⟩
    | true =>
      cases hagain : render source .backtracking with
      | error e => simp [compile, hlinear, hback, hagain, bind, Except.bind] at h
      | ok again => exact ⟨again.text, .inr fun _ => compile_backtracking hlinear hback hagain⟩

theorem source_of_compile {p : Pattern} (h : compile limits source = .ok p) : p.source = source := by
  obtain ⟨text, hlinear | hback⟩ := matcher_of_compile h
  · rw [hlinear] at h
    obtain ⟨m, -, rfl⟩ := ofMatcher?_eq_ok.1 h
    rfl
  · rw [hback] at h
    obtain ⟨m, -, rfl⟩ := ofMatcher?_eq_ok.1 h
    rfl

end Compile

/-- The pattern where no fewer steps back than the given number are allowed. -/
def raise (steps : Nat) (p : Pattern) : Pattern := ⟨p.source, p.matcher.raise steps⟩

theorem isMatch_raise {p : Pattern} {text : String} {answer : Bool} (steps : Nat)
    (h : p.isMatch text = .ok answer) : (p.raise steps).isMatch text = .ok answer :=
  Matcher.isMatch_raise steps h

theorem compile_raise {limits other : PatternLimits} (hsize : limits.size ≤ other.size)
    (hsteps : limits.steps ≤ other.steps) {source : String} {p : Pattern}
    (h : compile limits source = .ok p) : compile other source = .ok (p.raise other.steps) := by
  obtain ⟨text, hlinear | hback⟩ := matcher_of_compile h
  · rw [hlinear] at h ⊢
    obtain ⟨m, hm, rfl⟩ := ofMatcher?_eq_ok.1 h
    exact ofMatcher?_eq_ok.2 ⟨_, Matcher.linear?_raise hsize hm, rfl⟩
  · rw [hback] at h ⊢
    obtain ⟨m, hm, rfl⟩ := ofMatcher?_eq_ok.1 h
    exact ofMatcher?_eq_ok.2 ⟨_, Matcher.backtracking?_raise hsteps hm, rfl⟩

end JsonRules.Pattern
