import JsonRules.Pattern

/-!
# The two dialects

A pattern is written for both matchers token by token, and none but an ASCII word boundary is
written differently for them. The linear matcher has an assertion for word boundaries. For the
backtracking matcher they are put in terms of lookaround, and what that says is what its program
does at a position of a text: `Program.runAt`.
-/

namespace JsonRules.Pattern

/-- A token with the part of a pattern that it takes. -/
structure Segment where
  token : Token
  source : List Char

namespace Segment

def text (dialect : Dialect) (s : Segment) : List Char := s.token.text dialect

/-- A `\b` is written as a word boundary of the dialect, anything else the same in both. -/
def Agrees (s : Segment) : Prop :=
  if s.source = ['\\', 'b'] then
    s.text .linear = linearBoundaryText ∧ s.text .backtracking = boundaryText
  else s.text .linear = s.text .backtracking

end Segment

/-- Cuts a text into segments: what is left of it starts with a token each time, which takes
everything up to what is left then. -/
inductive Cut : List Char → List Segment → Prop
  | nil : Cut [] []
  | cons {c : Char} {cs source rest : List Char} {t : Token} {segments : List Segment}
      (read : Token.next c cs = .ok (t, rest)) (taken : c :: cs = source ++ rest)
      (more : Cut rest segments) : Cut (c :: cs) (⟨t, source⟩ :: segments)

def matcherOf? (limits : PatternLimits) (segments : List Segment) (backtracking : Bool) :
    Option Matcher :=
  if backtracking then
    Matcher.backtracking? limits (segments.flatMap (Segment.text .backtracking))
  else Matcher.linear? limits (segments.flatMap (Segment.text .linear))

/-- The source is cut into the given segments, one for each of its tokens, and written as their
texts in both dialects; it is compiled from what it is in the one that it needs. -/
structure Written (source : String) (segments : List Segment) (backtracking : Bool) : Prop where
  cut : Cut source.toList segments
  scanned : Token.scan source.toList = .ok (segments.map Segment.token)
  source_eq : source.toList = segments.flatMap Segment.source
  /-- A `\b` where a segment starts is all of the segment. -/
  boundary : ∀ s after, s :: after <:+ segments →
    ['\\', 'b'] <+: (s :: after).flatMap Segment.source → s.source = ['\\', 'b']
  agrees : ∀ s ∈ segments, s.source ≠ [] ∧ s.Agrees
  rendered : ∀ dialect, render source dialect =
    .ok ⟨segments.flatMap (Segment.text dialect), backtracking⟩
  compiled : ∀ limits, compile limits source =
    (matcherOf? limits segments backtracking).elim (.error .refused) fun m => .ok ⟨source, m⟩

end JsonRules.Pattern
