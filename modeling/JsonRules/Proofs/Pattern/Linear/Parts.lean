import JsonRules.Proofs.Pattern.Linear.Chars
import JsonRules.Proofs.Pattern.Linear.Parse
import JsonRules.Proofs.Pattern.Linear.Plan

/-!
# What the expression of a pattern spans

The expression that a pattern is parsed into spans the stretches that the pattern matches. Parts one
after the other are joined into a sequence, and alternatives into a choice of one of them.
-/

namespace JsonRules.Pattern

open Linear

section Join

variable {text : List Char} {i j k : Nat}

/-- Joined parts, with the last one at the end. -/
theorem join_reverse (combine : Regex → Regex → Regex) (init : List Part) (last : Part) :
    (OpenGroup.join combine (init ++ [last]).reverse).regex =
      init.foldr (fun p r => combine p.regex r) last.regex := by
  have hjoin : ∀ rest, (OpenGroup.join combine (last :: rest)).regex =
      rest.foldl (fun r p => combine p.regex r) last.regex := by
    intro rest
    cases rest <;> rfl
  rw [List.reverse_append, List.reverse_singleton, List.singleton_append, hjoin,
    List.foldl_reverse]

/-- The parts span stretches one after the other. -/
def Chain (text : List Char) : List Part → Nat → Nat → Prop
  | [], i, j => i = j
  | p :: ps, i, k => ∃ j, p.regex.Spans text i j ∧ Chain text ps j k

theorem chain_singleton {p : Part} : Chain text [p] i j ↔ p.regex.Spans text i j :=
  ⟨fun ⟨_, h, heq⟩ => heq ▸ h, fun h => ⟨j, h, rfl⟩⟩

theorem chain_append {ps qs : List Part} :
    Chain text (ps ++ qs) i k ↔ ∃ j, Chain text ps i j ∧ Chain text qs j k := by
  induction ps generalizing i with
  | nil => exact ⟨fun h => ⟨i, rfl, h⟩, fun ⟨j, hij, h⟩ => hij ▸ h⟩
  | cons p ps ih =>
    simp only [List.cons_append, Chain, ih]
    constructor
    · rintro ⟨x, hx, j, hps, hqs⟩; exact ⟨j, ⟨x, hx, hps⟩, hqs⟩
    · rintro ⟨j, ⟨x, hx, hps⟩, hqs⟩; exact ⟨x, hx, j, hps, hqs⟩

/-- A sequence spans what its parts span one after the other. -/
theorem spans_joinSeq (ps : List Part) :
    (OpenGroup.join .seq ps.reverse).regex.Spans text i j ↔ Chain text ps i j := by
  rcases List.eq_nil_or_concat ps with rfl | ⟨init, last, rfl⟩
  · exact Regex.spans_empty
  · rw [List.concat_eq_append, join_reverse]
    induction init generalizing i with
    | nil => exact chain_singleton.symm
    | cons p init ih => simp only [List.foldr_cons, Regex.spans_seq, ih, List.cons_append, Chain]

/-- A choice spans what one of its alternatives spans. -/
theorem spans_joinAlt {ps : List Part} (hne : ps ≠ []) :
    (OpenGroup.join .alt ps.reverse).regex.Spans text i j ↔ ∃ p ∈ ps, p.regex.Spans text i j := by
  rcases List.eq_nil_or_concat ps with rfl | ⟨init, last, rfl⟩
  · exact absurd rfl hne
  · rw [List.concat_eq_append, join_reverse]
    clear hne
    induction init with
    | nil => simp
    | cons p init ih =>
      simp only [List.foldr_cons, Regex.spans_alt, ih, List.cons_append, List.mem_cons,
        exists_eq_or_imp]

theorem satisfiable_join {combine : Regex → Regex → Regex}
    (hcombine : ∀ r s, r.Satisfiable → s.Satisfiable → (combine r s).Satisfiable)
    {ps : List Part} (h : ∀ p ∈ ps, p.regex.Satisfiable) :
    (OpenGroup.join combine ps.reverse).regex.Satisfiable := by
  rcases List.eq_nil_or_concat ps with rfl | ⟨init, last, rfl⟩
  · trivial
  · rw [List.concat_eq_append] at h ⊢
    obtain ⟨hinit, hlast⟩ := List.forall_mem_append.1 h
    rw [join_reverse]
    clear h
    induction init with
    | nil => exact hlast last List.mem_cons_self
    | cons p init ih =>
      obtain ⟨hp, hinit⟩ := List.forall_mem_cons.1 hinit
      exact hcombine _ _ hp (ih hinit)

theorem satisfiable_joinSeq {ps : List Part} (h : ∀ p ∈ ps, p.regex.Satisfiable) :
    (OpenGroup.join .seq ps.reverse).regex.Satisfiable := by
  refine satisfiable_join ?_ h
  exact fun _ _ hr hs => ⟨hr, hs⟩

theorem satisfiable_joinAlt {ps : List Part} (h : ∀ p ∈ ps, p.regex.Satisfiable) :
    (OpenGroup.join .alt ps.reverse).regex.Satisfiable := by
  refine satisfiable_join ?_ h
  exact fun _ _ hr hs => ⟨hr, hs⟩

end Join

/-- What parts span together: those of a disjunction are its alternatives. -/
def Level.Spans (text : List Char) : Level → List Part → Nat → Nat → Prop
  | .disjunction, parts, i, j => ∃ p ∈ parts, p.regex.Spans text i j
  | _, parts, i, j => Chain text parts i j

theorem Quantifier.least_le (q : Quantifier) : ∀ m, q.most = some m → q.least ≤ m := by
  intro m hm
  cases q with
  | star | plus | atLeast n => cases hm
  | optional => exact Nat.zero_le _
  | exactly n => cases hm; exact Nat.le_refl _
  | between n m' le => cases hm; exact le

namespace Source

theorem parts_ne_nil (s : Source .disjunction) : s.parts ≠ [] := by
  cases s <;> exact List.cons_ne_nil _ _

/-- The parts of a pattern span what the pattern matches. -/
theorem spans_parts {text : List Char} {l : Level} (s : Source l) {i j : Nat} :
    l.Spans text s.parts i j ↔ s.Matches CharSource.Takes text i j := by
  induction s generalizing i j with
  | char c =>
    rw [parts, Level.Spans, chain_singleton, Regex.spans_set, Matches]
    · simp only [c.has_chars]
    · rintro ⟨⟩
  | group kind body ih =>
    rw [parts, Level.Spans, chain_singleton, spans_joinAlt body.parts_ne_nil]
    · exact ih
    · rintro ⟨⟩
  | assertion a =>
    rw [parts, Level.Spans, chain_singleton, Regex.spans_assert, Matches]
    · rintro ⟨⟩
  | once a ih => exact ih
  | repeated a q reluctant ih =>
    obtain ⟨p, hp⟩ := a.parts_atom
    have hbody : ∀ i j, p.regex.Spans text i j ↔ a.Matches CharSource.Takes text i j := by
      intro i j
      rw [← chain_singleton, ← hp]
      exact ih
    rw [parts, hp, List.map_singleton, Level.Spans, chain_singleton, Regex.spans_rep q.least_le,
      Matches]
    · simp only [times_congr hbody, InBounds, and_assoc]
    · rintro ⟨⟩
  | empty => exact Iff.rfl
  | seq t more iht ihmore =>
    rw [parts, Level.Spans, chain_append, Matches]
    · exact exists_congr fun x => and_congr iht ihmore
    · rintro ⟨⟩
  | last a ih =>
    simp only [parts, Level.Spans, List.mem_singleton, exists_eq_left, spans_joinSeq]
    exact ih
  | alt a more iha ihmore =>
    simp only [parts, Level.Spans, List.mem_cons, exists_eq_or_imp, spans_joinSeq]
    exact or_congr iha ihmore

/-- No part asks for more repetitions than it allows. -/
theorem satisfiable_parts {l : Level} (s : Source l) : ∀ p ∈ s.parts, p.regex.Satisfiable := by
  induction s with
  | char c => exact List.forall_mem_singleton.2 trivial
  | group kind body ih => exact List.forall_mem_singleton.2 (satisfiable_joinAlt ih)
  | assertion a => exact List.forall_mem_singleton.2 trivial
  | once a ih => exact ih
  | repeated a q reluctant ih =>
    exact List.forall_mem_map.2 fun p hp => ⟨q.least_le, ih p hp⟩
  | empty => exact List.forall_mem_nil _
  | seq t more iht ihmore => exact List.forall_mem_append.2 ⟨iht, ihmore⟩
  | last a ih => exact List.forall_mem_singleton.2 (satisfiable_joinSeq ih)
  | alt a more iha ihmore => exact List.forall_mem_cons.2 ⟨satisfiable_joinSeq iha, ihmore⟩

/-- The expression of a pattern matches exactly the texts in which the pattern occurs. -/
theorem isMatch_part (s : Source .disjunction) (text : List Char) :
    s.part.regex.isMatch text = true ↔ s.OccursBy CharSource.Takes text := by
  have hsat : s.part.regex.Satisfiable := satisfiable_joinAlt s.satisfiable_parts
  rw [Regex.isMatch_iff _ hsat, Regex.Matches, OccursBy]
  exact exists_congr fun i => exists_congr fun j => and_congr_right fun _ =>
    (spans_joinAlt s.parts_ne_nil).trans s.spans_parts

/-- Where no class straddles the surrogates, every part takes the characters that it admits. -/
theorem matches_takes {text : List Char} {l : Level} (s : Source l) (hc : ¬ s.Straddles)
    {i j : Nat} : s.Matches CharSource.Takes text i j ↔
      s.Matches (fun c x => c.admits x = true) text i j := by
  induction s generalizing i j with
  | char c =>
    refine and_congr_right fun _ => exists_congr fun x => and_congr_right fun _ => ?_
    exact or_iff_left fun h => hc h.1
  | group kind body ih => exact ih hc
  | assertion a => exact Iff.rfl
  | once a ih => exact ih hc
  | repeated a q reluctant ih =>
    refine exists_congr fun n => and_congr_right fun _ => and_congr_right fun _ => ?_
    exact times_congr fun _ _ => ih hc
  | empty => exact Iff.rfl
  | seq t more iht ihmore =>
    obtain ⟨ht, hmore⟩ := not_or.1 hc
    exact exists_congr fun x => and_congr (iht ht) (ihmore hmore)
  | last a ih => exact ih hc
  | alt a more iha ihmore =>
    obtain ⟨ha, hmore⟩ := not_or.1 hc
    exact or_congr (iha ha) (ihmore hmore)

theorem occursBy_takes (s : Source .disjunction) (hc : ¬ s.Straddles) (text : List Char) :
    s.OccursBy CharSource.Takes text ↔ s.Occurs text :=
  exists_congr fun _ => exists_congr fun _ => and_congr_right fun _ => s.matches_takes hc

end Source

end JsonRules.Pattern
