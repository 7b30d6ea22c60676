import JsonRules.Proofs.Pattern.Splitting

/-!
# Tokens in the syntax of the linear matcher

The linear matcher reads every text of tokens apart from what follows it, unless a repetition or a
name in it goes on there.
-/

namespace JsonRules.Pattern.Linear

variable {cs ds after : List Char}

section Counts

theorem isWhiteSpace_count {c : Char} (h : Unicode.isWhiteSpace c = true) :
    isCountChar .linear c = true := by
  rw [isCountChar, h, Bool.or_true]

theorem isDigit_count {c : Char} (h : c.isDigit = true) : isCountChar .linear c = true := by
  rw [isCountChar, h]
  rfl

theorem count?_append (h : Stops (isCountChar .linear) cs ds) :
    Lexeme.count? (cs ++ ds) = (Lexeme.count? cs).map fun r => (r.1, r.2 ++ ds) := by
  have hblank := leaves_dropWhile Unicode.isWhiteSpace cs
  have hstart := h.leaves (hblank.weaken fun _ => isWhiteSpace_count)
  have hdigits := leaves_dropWhile Char.isDigit (cs.dropWhile Unicode.isWhiteSpace)
  have hrest := hstart.leaves (hdigits.weaken fun _ => isDigit_count)
  unfold Lexeme.count?
  simp only
  rw [(h.weaken fun _ => isWhiteSpace_count).dropWhile_append,
    (hstart.weaken fun _ => isDigit_count).takeWhile_append,
    (hstart.weaken fun _ => isDigit_count).dropWhile_append,
    (hrest.weaken fun _ => isWhiteSpace_count).dropWhile_append]
  split <;> rfl

theorem count?_leaves {r : Nat × List Char} (h : Lexeme.count? cs = some r) :
    Leaves (isCountChar .linear) cs r.2 := by
  unfold Lexeme.count? at h
  simp only at h
  split at h
  · cases h
  · cases h
    have hblank := leaves_dropWhile Unicode.isWhiteSpace cs
    have hdigits := leaves_dropWhile Char.isDigit (cs.dropWhile Unicode.isWhiteSpace)
    have hrest := leaves_dropWhile Unicode.isWhiteSpace
      ((cs.dropWhile Unicode.isWhiteSpace).dropWhile Char.isDigit)
    exact ((hblank.weaken fun _ => isWhiteSpace_count).trans
      (hdigits.weaken fun _ => isDigit_count)).trans (hrest.weaken fun _ => isWhiteSpace_count)

def closing? (least most : Nat) : List Char → Option ((Nat × Option Nat) × List Char)
  | '}' :: rest => if most < least then none else some ((least, some most), rest)
  | _ => none

def boundsAfter? (least : Nat) : List Char → Option ((Nat × Option Nat) × List Char)
  | '}' :: rest => some ((least, some least), rest)
  | ',' :: '}' :: rest => some ((least, none), rest)
  | ',' :: rest => (Lexeme.count? rest).bind fun r => closing? least r.1 r.2
  | _ => none

theorem bounds?_eq (cs : List Char) :
    Lexeme.bounds? cs = (Lexeme.count? cs).bind fun r => boundsAfter? r.1 r.2 := rfl

theorem closing?_append (least most : Nat) (h : Unbounded .linear cs ds) :
    closing? least most (cs ++ ds) = (closing? least most cs).map fun r => (r.1, r.2 ++ ds) := by
  have hnone : ∀ es : List Char, es.head? ≠ some '}' → closing? least most es = none := by
    intro es hes
    unfold closing?
    split
    · exact absurd rfl hes
    · rfl
  by_cases hclose : cs.head? = some '}'
  · obtain ⟨rest, rfl⟩ := List.head?_eq_some_iff.1 hclose
    rw [List.cons_append, closing?, closing?]
    split <;> rfl
  · rw [hnone cs hclose, hnone _ (h.head (.inl rfl) hclose)]
    rfl

theorem boundsAfter?_append (least : Nat) (h : Unbounded .linear cs ds) :
    boundsAfter? least (cs ++ ds) = (boundsAfter? least cs).map fun r => (r.1, r.2 ++ ds) := by
  have hnone : ∀ es : List Char, es.head? ≠ some '}' → es.head? ≠ some ',' →
      boundsAfter? least es = none := by
    intro es hclose hcomma
    unfold boundsAfter?
    split
    · exact absurd rfl hclose
    · exact absurd rfl hcomma
    · exact absurd rfl hcomma
    · rfl
  have htwo : ∀ es : List Char, es.head? ≠ some '}' → boundsAfter? least (',' :: es) =
      (Lexeme.count? es).bind fun r => closing? least r.1 r.2 := by
    intro es hes
    rw [boundsAfter?]
    rintro rest rfl
    exact hes rfl
  by_cases hclose : cs.head? = some '}'
  · obtain ⟨rest, rfl⟩ := List.head?_eq_some_iff.1 hclose
    rfl
  by_cases hcomma : cs.head? = some ','
  · obtain ⟨rest, rfl⟩ := List.head?_eq_some_iff.1 hcomma
    have hrest : Unbounded .linear rest ds := h.leaves ((Leaves.refl rest).cons rfl)
    by_cases hopen : rest.head? = some '}'
    · obtain ⟨more, rfl⟩ := List.head?_eq_some_iff.1 hopen
      rfl
    · rw [List.cons_append, htwo _ hopen, htwo _ (hrest.head (.inl rfl) hopen),
        count?_append hrest.1]
      cases hcount : Lexeme.count? rest with
      | none => rfl
      | some r => exact closing?_append least r.1 (hrest.leaves (count?_leaves hcount))
  · rw [hnone cs hclose hcomma,
      hnone _ (h.head (.inl rfl) hclose) (h.head (.inr rfl) hcomma)]
    rfl

/-- The bounds of a repetition do not depend on what follows a text, unless the text ends within
them. -/
theorem bounds?_append (h : Unbounded .linear cs ds) :
    Lexeme.bounds? (cs ++ ds) = (Lexeme.bounds? cs).map fun r => (r.1, r.2 ++ ds) := by
  rw [bounds?_eq, bounds?_eq, count?_append h.1]
  cases hcount : Lexeme.count? cs with
  | none => rfl
  | some r => exact boundsAfter?_append r.1 (h.leaves (count?_leaves hcount))

theorem bounds?_leaves {r : (Nat × Option Nat) × List Char} (h : Lexeme.bounds? cs = some r) :
    Leaves (isBoundsChar .linear) cs r.2 := by
  have hcount : ∀ {cs} {r : Nat × List Char}, Lexeme.count? cs = some r →
      Leaves (isBoundsChar .linear) cs r.2 :=
    fun h => (count?_leaves h).weaken fun _ => isBoundsChar_of_isCountChar
  have hbrace : ∀ rest, Leaves (isBoundsChar .linear) ('}' :: rest) rest :=
    fun rest => (Leaves.refl rest).cons rfl
  rw [bounds?_eq] at h
  obtain ⟨⟨least, rest⟩, hleast, h⟩ := Option.bind_eq_some_iff.1 h
  refine (hcount hleast).trans ?_
  simp only at h
  unfold boundsAfter? at h
  split at h
  · cases h
    exact hbrace _
  · cases h
    exact (hbrace _).cons rfl
  · obtain ⟨⟨most, more⟩, hmost, h⟩ := Option.bind_eq_some_iff.1 h
    refine ((hcount hmost).trans ?_).cons rfl
    simp only at h
    unfold closing? at h
    split at h
    · split at h
      · cases h
      · cases h
        exact hbrace _
    · cases h
  · cases h

end Counts

section Tokens

theorem repetition_append (least : Nat) (most : Option Nat) (h : ds.head? ≠ some '?') :
    Lexeme.repetition least most (cs ++ ds) =
      ((Lexeme.repetition least most cs).1, (Lexeme.repetition least most cs).2 ++ ds) := by
  by_cases hmark : cs.head? = some '?'
  · obtain ⟨rest, rfl⟩ := List.head?_eq_some_iff.1 hmark
    rfl
  · rw [repetition_greedy least most hmark, repetition_greedy least most (head_append hmark h)]

theorem repetition_leaves (least : Nat) (most : Option Nat) (cs : List Char) :
    Leaves (· == '?') cs (Lexeme.repetition least most cs).2 := by
  by_cases hmark : cs.head? = some '?'
  · obtain ⟨rest, rfl⟩ := List.head?_eq_some_iff.1 hmark
    exact (Leaves.refl rest).cons rfl
  · rw [repetition_greedy least most hmark]
    exact .refl cs

theorem backslash_not_mem_of_isName {name : List Char} (h : Lexeme.isName name = true) :
    '\\' ∉ name := by
  cases name with
  | nil => exact List.not_mem_nil
  | cons c cs =>
    rw [Lexeme.isName, Bool.and_eq_true, List.all_eq_true] at h
    intro hmem
    rcases List.mem_cons.1 hmem with rfl | hmem
    · exact absurd h.1 (by decide)
    · exact absurd (h.2 _ hmem) (by decide)

variable {ts : List Token}

theorem lands_repetition {c : Char} (least : Nat) (most : Option Nat) (hts : Scanned ts)
    (hnext : ∀ cs, Lexeme.next? c cs = some (Lexeme.repetition least most cs)) :
    Lexer.linear.Lands .linear ts c (ts.flatMap (Token.text .linear)) := by
  intro l left hleft
  have hleft : Lexeme.next? c (ts.flatMap (Token.text .linear)) = some (l, left) := hleft
  rw [hnext] at hleft
  have hleaves := repetition_leaves least most (ts.flatMap (Token.text .linear))
  rw [Option.some.inj hleft] at hleaves
  exact exists_suffix_of_leaves (by simp [textMarks]) hts hleaves

theorem next?_counted (cs : List Char) : Lexer.linear.next? '{' cs =
    (Lexeme.bounds? cs).map fun r => Lexeme.repetition r.1.1 r.1.2 r.2 := rfl

theorem lands_counted (hts : Scanned ts) :
    Lexer.linear.Lands .linear ts '{' (ts.flatMap (Token.text .linear)) := by
  intro l left hleft
  rw [next?_counted] at hleft
  obtain ⟨r, hbounds, hleft⟩ := Option.map_eq_some_iff.1 hleft
  -- a `?` after the brace belongs to the repetition
  have hcounts := (bounds?_leaves hbounds).weaken
    (q := fun c => isBoundsChar .linear c || c == '?') fun _ hc => by rw [hc, Bool.true_or]
  have hreluctant := (repetition_leaves r.1.1 r.1.2 r.2).weaken
    (q := fun c => isBoundsChar .linear c || c == '?') fun _ hc => by rw [hc, Bool.or_true]
  rw [hleft] at hreluctant
  refine exists_suffix_of_leaves (fun c hc => ?_) hts (hcounts.trans hreluctant)
  rw [isBoundsChar_textMarks c hc, Bool.false_or]
  exact (by simp [textMarks] : ∀ c ∈ textMarks, (c == '?') = false) c hc

/-- A character that is taken as it stands begins a lexeme that ends where a token ends. -/
theorem lands_raw {c : Char} (h : Scanned (.raw c :: ts)) :
    Lexer.linear.Lands .linear ts c (ts.flatMap (Token.text .linear)) := by
  by_cases hplain : c ∈ lexemeMarks
  · simp only [lexemeMarks, List.mem_cons, List.not_mem_nil, or_false] at hplain
    rcases hplain with rfl | rfl | rfl | rfl | rfl | rfl | rfl | rfl | rfl | rfl | rfl
    · exact absurd rfl h.1.1
    · exact absurd rfl h.1.2
    · exact Lexer.lands_parenthesis (fun _ => group?_plain) h
    · exact .refl rfl
    · exact .refl rfl
    · exact .refl rfl
    · exact .refl rfl
    · exact lands_repetition 0 none h.2.2 fun _ => rfl
    · exact lands_repetition 1 none h.2.2 fun _ => rfl
    · exact lands_repetition 0 (some 1) h.2.2 fun _ => rfl
    · exact lands_counted h.2.2
  · exact .refl (next?_plain hplain _)

/-- What a character that is taken as it stands is read as does not depend on what follows, unless
a repetition goes on there. -/
theorem next?_raw_append {c : Char} (h : Scanned (.raw c :: ts))
    (hends : (Token.raw c).Ends .linear (ts.flatMap (Token.text .linear)) after)
    (hmark : after.head? ≠ some '?') :
    Lexeme.next? c (ts.flatMap (Token.text .linear) ++ after) =
      (Lexeme.next? c (ts.flatMap (Token.text .linear))).map fun r => (r.1, r.2 ++ after) := by
  have hrepeat : ∀ {least most}, (∀ cs, Lexeme.next? c cs =
      some (Lexeme.repetition least most cs)) →
        Lexeme.next? c (ts.flatMap (Token.text .linear) ++ after) =
          (Lexeme.next? c (ts.flatMap (Token.text .linear))).map fun r => (r.1, r.2 ++ after) := by
    intro least most hnext
    rw [hnext, hnext, repetition_append least most hmark]
    rfl
  by_cases hplain : c ∈ lexemeMarks
  · simp only [lexemeMarks, List.mem_cons, List.not_mem_nil, or_false] at hplain
    rcases hplain with rfl | rfl | rfl | rfl | rfl | rfl | rfl | rfl | rfl | rfl | rfl
    · exact absurd rfl h.1.1
    · exact absurd rfl h.1.2
    · have hhead := head_flatMap_text .linear h.2.2 (h.2.1 rfl)
      show Lexeme.group? (_ ++ after) = (Lexeme.group? _).map _
      rw [group?_plain hhead, group?_plain (head_append hhead hmark)]
      rfl
    · rfl
    · rfl
    · rfl
    · rfl
    · exact hrepeat fun _ => rfl
    · exact hrepeat fun _ => rfl
    · exact hrepeat fun _ => rfl
    · show Lexer.linear.next? '{' _ = (Lexer.linear.next? '{' _).map _
      rw [next?_counted, next?_counted, bounds?_append (hends rfl), Option.map_map, Option.map_map]
      exact congrArg (Option.map · _) (funext fun r => repetition_append r.1.1 r.1.2 hmark)
  · rw [next?_plain hplain, next?_plain hplain]
    rfl

/-- The linear matcher reads a character that is taken as it stands apart from what follows. -/
theorem splits_raw {c : Char} (hscanned : Scanned (.raw c :: ts))
    (hends : (Token.raw c).Ends .linear (ts.flatMap (Token.text .linear)) after)
    (hmark : after.head? ≠ some '?')
    (rest : ∀ us, us <:+ ts → Lexer.linear.Splits (us.flatMap (Token.text .linear)) after) :
    Lexer.linear.Splits (c :: ts.flatMap (Token.text .linear)) after :=
  Lexer.splits_lexeme (List.suffix_refl _) (next?_raw_append hscanned hends hmark)
    (lands_raw hscanned) rest

/-- The linear matcher reads every token apart from what follows it, if it ends before that. -/
theorem splits_token {t : Token} (hscanned : Scanned (t :: ts))
    (hends : t.Ends .linear (ts.flatMap (Token.text .linear)) after)
    (hmark : after.head? ≠ some '?')
    (rest : ∀ us, us <:+ ts → Lexer.linear.Splits (us.flatMap (Token.text .linear)) after) :
    Lexer.linear.Splits (t.text .linear ++ ts.flatMap (Token.text .linear)) after := by
  have hrest := rest ts (List.suffix_refl ts)
  cases t with
  | raw c => exact splits_raw hscanned hends hmark rest
  | group opening =>
    have hrefused : ∀ cs, (∀ after, Lexeme.next? '(' (cs ++ after) = none) →
        Lexer.linear.Splits ('(' :: cs ++ ts.flatMap (Token.text .linear)) after :=
      fun _ hnone => .closed (.refused hnone) hrest
    cases opening with
    | plain =>
      have hplain : Lexer.linear.Closed ['(', '?', ':'] (some [.openGroup none]) :=
        .one fun _ => rfl
      exact .closed hplain hrest
    | named =>
      exact Lexer.splits_named (fun name => .openGroup (some name)) (fun _ => rfl)
        (fun _ => backslash_not_mem_of_isName) hscanned.2.2 hends rest
    | lookahead negative =>
      cases negative
      · exact hrefused ['?', '='] fun _ => rfl
      · exact hrefused ['?', '!'] fun _ => rfl
    | lookbehind negative =>
      cases negative
      · exact hrefused ['?', '<', '='] fun _ => rfl
      · exact hrefused ['?', '<', '!'] fun _ => rfl
  | boundary negated =>
    cases negated with
    | false =>
      have hboundary : Lexer.linear.Closed ['(', '?', '-', 'u', ':', '\\', 'b', ')']
          (some [.assert .wordBoundary 1]) :=
        .one fun _ => rfl
      exact .closed hboundary hrest
    | true =>
      have hopen : Lexer.linear.Closed ['(', '?', ':'] (some [.openGroup none]) :=
        .one fun _ => rfl
      have hbehind : Lexer.linear.Closed ('(' :: noBoundaryText.drop 4) none :=
        .refused fun _ => rfl
      exact .closed (hopen.append hbehind) hrest
  | backref digits =>
    obtain ⟨hne, hdigits⟩ := hscanned.1
    obtain ⟨d, more, rfl⟩ := List.exists_cons_of_ne_nil hne
    have hset := escapedSet?_digit (hdigits d List.mem_cons_self)
    have hrefused : Lexer.linear.Closed ('\\' :: d :: more) none :=
      .refused fun rest => by
        show (escapedSet? (d :: (more ++ rest))).map _ = none
        rw [hset]
        rfl
    exact .closed hrefused hrest
  | namedBackref name =>
    have hnamed : Lexer.linear.Closed ('\\' :: 'k' :: name) none :=
      .refused fun _ => rfl
    exact .closed hnamed hrest
  | _ =>
    obtain ⟨lexeme?, hwhole⟩ := Lexer.whole_of_isSet (x := .linear) .linear hscanned.1 rfl
    exact .closed hwhole.closed hrest

end Tokens

end JsonRules.Pattern.Linear
