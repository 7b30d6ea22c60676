import JsonRules.Proofs.Pattern.Splitting

/-!
# Tokens in the syntax of the backtracking matcher

The backtracking matcher reads every text of tokens apart from what follows it, unless a reference, a
repetition or a name in it goes on there.
-/

namespace JsonRules.Pattern.Backtrack

variable {cs ds after : List Char}

section Counts

theorem isDigit_count {c : Char} (h : c.isDigit = true) : isCountChar .backtracking c = true := by
  rw [isCountChar, h, Bool.true_or]

theorem count?_append (h : Stops Char.isDigit cs ds) :
    Lexeme.count? (cs ++ ds) = (Lexeme.count? cs).map fun r => (r.1, r.2 ++ ds) := by
  unfold Lexeme.count?
  simp only
  rw [h.takeWhile_append, h.dropWhile_append]
  split <;> rfl

theorem count?_rest {r : Nat × List Char} (h : Lexeme.count? cs = some r) :
    r.2 = cs.dropWhile Char.isDigit := by
  unfold Lexeme.count? at h
  simp only at h
  split at h
  · cases h
  · cases h
    rfl

theorem count?_leaves {r : Nat × List Char} (h : Lexeme.count? cs = some r) :
    Leaves (isCountChar .backtracking) cs r.2 := by
  rw [count?_rest h]
  exact (leaves_dropWhile Char.isDigit cs).weaken fun _ => isDigit_count

/-- The least count of a repetition, which is 0 if it is left out. -/
def least? : List Char → Option (Nat × List Char)
  | ',' :: cs => some (0, ',' :: cs)
  | cs => Lexeme.count? cs

def most (cs : List Char) : Option Nat × List Char :=
  match Lexeme.count? cs with
  | some r => (some r.1, r.2)
  | none => (none, cs)

def closing? (bounds : Nat × Option Nat) : List Char → Option ((Nat × Option Nat) × List Char)
  | '}' :: rest => some (bounds, rest)
  | _ => none

def boundsAfter? (least : Nat) : List Char → Option ((Nat × Option Nat) × List Char)
  | '}' :: rest => some ((least, some least), rest)
  | ',' :: rest => closing? (least, (most rest).1) (most rest).2
  | _ => none

theorem least?_of_head (h : cs.head? ≠ some ',') : least? cs = Lexeme.count? cs := by
  unfold least?
  split
  · exact absurd rfl h
  · rfl

theorem bounds?_eq (cs : List Char) :
    Lexeme.bounds? cs = (least? cs).bind fun r => boundsAfter? r.1 r.2 := by
  unfold Lexeme.bounds?
  split
  · next rest =>
    show _ = boundsAfter? 0 (',' :: rest)
    rw [boundsAfter?, most]
    simp only [Option.bind_eq_bind, Option.bind_some]
    cases Lexeme.count? rest <;> rfl
  · next hcomma =>
    have hhead : cs.head? ≠ some ',' := by
      intro hhead
      obtain ⟨rest, rfl⟩ := List.head?_eq_some_iff.1 hhead
      exact hcomma rest rfl
    rw [least?_of_head hhead]
    refine congrArg (Option.bind (Lexeme.count? cs)) (funext fun r => ?_)
    obtain ⟨least, rest⟩ := r
    show _ = boundsAfter? least rest
    simp only
    split
    · rfl
    · next rest =>
      rw [boundsAfter?, most]
      cases Lexeme.count? rest <;> rfl
    · next hbrace hcomma =>
      rw [boundsAfter?]
      · exact fun _ heq => hbrace _ heq
      · exact fun _ heq => hcomma _ heq

theorem least?_append (h : Unbounded .backtracking cs ds) :
    least? (cs ++ ds) = (least? cs).map fun r => (r.1, r.2 ++ ds) := by
  by_cases hcomma : cs.head? = some ','
  · obtain ⟨rest, rfl⟩ := List.head?_eq_some_iff.1 hcomma
    rfl
  · rw [least?_of_head hcomma, least?_of_head (h.head (.inr rfl) hcomma),
      count?_append (h.1.weaken fun _ => isDigit_count)]

theorem least?_leaves {r : Nat × List Char} (h : least? cs = some r) :
    Leaves (isCountChar .backtracking) cs r.2 := by
  by_cases hcomma : cs.head? = some ','
  · obtain ⟨rest, rfl⟩ := List.head?_eq_some_iff.1 hcomma
    cases h
    exact .refl _
  · rw [least?_of_head hcomma] at h
    exact count?_leaves h

theorem most_append (h : Unbounded .backtracking cs ds) :
    most (cs ++ ds) = ((most cs).1, (most cs).2 ++ ds) := by
  unfold most
  rw [count?_append (h.1.weaken fun _ => isDigit_count)]
  cases Lexeme.count? cs <;> rfl

theorem most_leaves (cs : List Char) : Leaves (isCountChar .backtracking) cs (most cs).2 := by
  unfold most
  cases h : Lexeme.count? cs with
  | none => exact .refl cs
  | some r => exact count?_leaves h

theorem closing?_append (bounds : Nat × Option Nat) (h : Unbounded .backtracking cs ds) :
    closing? bounds (cs ++ ds) = (closing? bounds cs).map fun r => (r.1, r.2 ++ ds) := by
  have hnone : ∀ es : List Char, es.head? ≠ some '}' → closing? bounds es = none := by
    intro es hes
    unfold closing?
    split
    · exact absurd rfl hes
    · rfl
  by_cases hclose : cs.head? = some '}'
  · obtain ⟨rest, rfl⟩ := List.head?_eq_some_iff.1 hclose
    rfl
  · rw [hnone cs hclose, hnone _ (h.head (.inl rfl) hclose)]
    rfl

theorem boundsAfter?_append (least : Nat) (h : Unbounded .backtracking cs ds) :
    boundsAfter? least (cs ++ ds) = (boundsAfter? least cs).map fun r => (r.1, r.2 ++ ds) := by
  have hnone : ∀ es : List Char, es.head? ≠ some '}' → es.head? ≠ some ',' →
      boundsAfter? least es = none := by
    intro es hclose hcomma
    unfold boundsAfter?
    split
    · exact absurd rfl hclose
    · exact absurd rfl hcomma
    · rfl
  by_cases hclose : cs.head? = some '}'
  · obtain ⟨rest, rfl⟩ := List.head?_eq_some_iff.1 hclose
    rfl
  by_cases hcomma : cs.head? = some ','
  · obtain ⟨rest, rfl⟩ := List.head?_eq_some_iff.1 hcomma
    have hrest : Unbounded .backtracking rest ds := h.leaves ((Leaves.refl rest).cons rfl)
    rw [List.cons_append, boundsAfter?, boundsAfter?, most_append hrest]
    exact closing?_append _ (hrest.leaves (most_leaves rest))
  · rw [hnone cs hclose hcomma, hnone _ (h.head (.inl rfl) hclose) (h.head (.inr rfl) hcomma)]
    rfl

/-- The bounds of a repetition do not depend on what follows a text, unless the text ends within
them. -/
theorem bounds?_append (h : Unbounded .backtracking cs ds) :
    Lexeme.bounds? (cs ++ ds) = (Lexeme.bounds? cs).map fun r => (r.1, r.2 ++ ds) := by
  rw [bounds?_eq, bounds?_eq, least?_append h]
  cases hleast : least? cs with
  | none => rfl
  | some r => exact boundsAfter?_append r.1 (h.leaves (least?_leaves hleast))

theorem bounds?_leaves {r : (Nat × Option Nat) × List Char} (h : Lexeme.bounds? cs = some r) :
    Leaves (isBoundsChar .backtracking) cs r.2 := by
  have hbrace : ∀ rest, Leaves (isBoundsChar .backtracking) ('}' :: rest) rest :=
    fun rest => (Leaves.refl rest).cons rfl
  rw [bounds?_eq] at h
  obtain ⟨⟨least, rest⟩, hleast, h⟩ := Option.bind_eq_some_iff.1 h
  refine ((least?_leaves hleast).weaken fun _ => isBoundsChar_of_isCountChar).trans ?_
  simp only at h
  unfold boundsAfter? at h
  split at h
  · cases h
    exact hbrace _
  · next more =>
    refine (((most_leaves more).weaken fun _ => isBoundsChar_of_isCountChar).trans ?_).cons rfl
    unfold closing? at h
    split at h
    · next heq =>
      cases h
      rw [heq]
      exact hbrace _
    · cases h
  · cases h

end Counts

section Tokens

variable {ts : List Token}

theorem opening?_plain (h : cs.head? ≠ some '?') :
    Lexeme.opening? cs = some (.capture none, cs) := by
  unfold Lexeme.opening?
  split
  all_goals first | exact absurd rfl h | rfl

theorem opening?_named (cs : List Char) : Lexeme.opening? ('?' :: 'P' :: '<' :: cs) =
    (before? '>' cs).bind fun r =>
      if Lexeme.isName r.1 then some (.capture (some r.1), r.2) else none := rfl

theorem backslash_not_mem_of_isName {name : List Char} (h : Lexeme.isName name = true) :
    '\\' ∉ name := by
  rw [Lexeme.isName, Bool.and_eq_true, List.all_eq_true] at h
  exact fun hmem => absurd (h.2 _ hmem) (by decide)

/-- A brace is read apart from what follows the text in which its repetition ends, and as itself
where it begins none. -/
theorem splits_brace (hts : Scanned ts)
    (h : Unbounded .backtracking (ts.flatMap (Token.text .backtracking)) after)
    (rest : ∀ us, us <:+ ts →
      Lexer.backtracking.Splits (us.flatMap (Token.text .backtracking)) after) :
    Lexer.backtracking.Splits ('{' :: ts.flatMap (Token.text .backtracking)) after := by
  have hsome : ∀ {cs : List Char} {r : (Nat × Option Nat) × List Char},
      Lexeme.bounds? cs = some r → Lexeme.next? '{' cs =
        some (.counted r.1.1 r.1.2 (cs.take (cs.length - r.2.length)), r.2) := by
    intro cs r hr
    simp only [Lexeme.next?, hr]
  have hnone : ∀ {cs : List Char}, Lexeme.bounds? cs = none →
      Lexeme.next? '{' cs = some (.set (single '{'.toNat), cs) := by
    intro cs hr
    simp only [Lexeme.next?, hr]
  have happend := bounds?_append h
  refine Lexer.splits_lexeme (List.suffix_refl _) ?_ (fun l left hleft => ?_) rest
  · show Lexeme.next? '{' (_ ++ after) = (Lexeme.next? '{' _).map _
    generalize ts.flatMap (Token.text .backtracking) = text at happend
    cases hbounds : Lexeme.bounds? text with
    | none =>
      rw [hbounds] at happend
      rw [hnone hbounds, hnone happend]
      rfl
    | some r =>
      rw [hbounds] at happend
      rw [hsome hbounds, hsome happend]
      -- the lexeme keeps the text of its bounds, which ends before the text after it
      have hlen : (text ++ after).length - (r.2 ++ after).length = text.length - r.2.length := by
        rw [List.length_append, List.length_append]
        omega
      simp only [hlen, List.take_append_of_le_length (Nat.sub_le _ _), Option.map_some]
  · have hleft : Lexeme.next? '{' (ts.flatMap (Token.text .backtracking)) = some (l, left) := hleft
    cases hbounds : Lexeme.bounds? (ts.flatMap (Token.text .backtracking)) with
    | none =>
      rw [hnone hbounds] at hleft
      cases hleft
      exact ⟨ts, List.suffix_refl ts, rfl⟩
    | some r =>
      rw [hsome hbounds] at hleft
      cases hleft
      exact exists_suffix_of_leaves isBoundsChar_textMarks hts (bounds?_leaves hbounds)

/-- The backtracking matcher reads a character that is taken as it stands apart from what follows. -/
theorem splits_raw {c : Char} (hscanned : Scanned (.raw c :: ts))
    (hends : (Token.raw c).Ends .backtracking (ts.flatMap (Token.text .backtracking)) after)
    (hmark : after.head? ≠ some '?')
    (rest : ∀ us, us <:+ ts →
      Lexer.backtracking.Splits (us.flatMap (Token.text .backtracking)) after) :
    Lexer.backtracking.Splits (c :: ts.flatMap (Token.text .backtracking)) after := by
  have hclosed : ∀ {lexeme : Lexeme}, (∀ cs, Lexeme.next? c cs = some (lexeme, cs)) →
      Lexer.backtracking.Splits (c :: ts.flatMap (Token.text .backtracking)) after :=
    fun hnext => Lexer.splits_char hnext (rest ts (List.suffix_refl ts))
  have hopen : ∀ cs : List Char, cs.head? ≠ some '?' →
      Lexeme.next? '(' cs = some (.openGroup (.capture none), cs) := by
    intro cs hcs
    rw [Lexeme.next?, opening?_plain hcs]
    rfl
  by_cases hplain : c ∈ Linear.lexemeMarks
  · simp only [Linear.lexemeMarks, List.mem_cons, List.not_mem_nil, or_false] at hplain
    rcases hplain with rfl | rfl | rfl | rfl | rfl | rfl | rfl | rfl | rfl | rfl | rfl
    · exact absurd rfl hscanned.1.1
    · exact absurd rfl hscanned.1.2
    · exact Lexer.splits_parenthesis hopen hscanned hmark rest
    · exact hclosed fun _ => rfl
    · exact hclosed fun _ => rfl
    · exact hclosed fun _ => rfl
    · exact hclosed fun _ => rfl
    · exact hclosed fun _ => rfl
    · exact hclosed fun _ => rfl
    · exact hclosed fun _ => rfl
    · exact splits_brace hscanned.2.2 (hends rfl) rest
  · exact hclosed fun cs => next?_plain hplain cs

theorem next?_backref {c : Char} (h : c.isDigit = true) (cs : List Char) :
    Lexeme.next? '\\' (c :: cs) =
      (Lexeme.count? (c :: cs)).map fun r => (.backref r.1, r.2) := by
  rw [Lexeme.next?, Lexeme.escape?]
  · exact if_pos h
  · rintro _ rfl
    cases h

/-- A reference by number is read apart from what follows the text in which its digits end. -/
theorem splits_backref {digits : List Char} (hdigits : digits ≠ [] ∧ ∀ c ∈ digits, c.isDigit = true)
    (hts : Scanned ts) (h : Stops Char.isDigit (ts.flatMap (Token.text .backtracking)) after)
    (rest : ∀ us, us <:+ ts →
      Lexer.backtracking.Splits (us.flatMap (Token.text .backtracking)) after) :
    Lexer.backtracking.Splits ('\\' :: (digits ++ ts.flatMap (Token.text .backtracking))) after := by
  obtain ⟨hne, hall⟩ := hdigits
  obtain ⟨d, more, rfl⟩ := List.exists_cons_of_ne_nil hne
  have hd := hall d List.mem_cons_self
  have hstops : Stops Char.isDigit (d :: (more ++ ts.flatMap (Token.text .backtracking))) after :=
    fun hcs => h fun c hc => hcs c (List.mem_cons_of_mem _ (List.mem_append_right _ hc))
  refine Lexer.splits_lexeme (List.suffix_append (d :: more) _) ?_ (fun l left hleft => ?_) rest
  · show Lexeme.next? '\\' (d :: (more ++ _ ++ after)) = (Lexeme.next? '\\' (d :: (more ++ _))).map _
    rw [next?_backref hd, next?_backref hd, ← List.cons_append, count?_append hstops,
      Option.map_map, Option.map_map]
    rfl
  · have hleft : Lexeme.next? '\\' (d :: (more ++ ts.flatMap (Token.text .backtracking))) =
      some (l, left) := hleft
    rw [next?_backref hd] at hleft
    obtain ⟨r, hcount, hleft⟩ := Option.map_eq_some_iff.1 hleft
    cases hleft
    rw [count?_rest hcount, ← List.cons_append, List.dropWhile_append_of_pos hall]
    exact exists_suffix_of_leaves (by simp [textMarks]) hts (leaves_dropWhile _ _)

/-- Only the name of a named group is not read apart from what follows the opening of a group. -/
theorem closed_opening {opening : GroupOpening} (h : opening ≠ .named) :
    ∃ xs?, Lexer.backtracking.Closed opening.text xs? := by
  have hclosed : ∀ {cs : List Char} {o : Opening},
      (∀ rest, Lexeme.next? '(' (cs ++ rest) = some (.openGroup o, rest)) →
        ∃ xs?, Lexer.backtracking.Closed ('(' :: cs) xs? :=
    fun hnext => ⟨_, .one hnext⟩
  cases opening with
  | plain => exact hclosed (fun _ => rfl : ∀ rest, Lexeme.next? '(' (['?', ':'] ++ rest) = _)
  | named => exact absurd rfl h
  | lookahead negative =>
    cases negative
    · exact hclosed (fun _ => rfl : ∀ rest, Lexeme.next? '(' (['?', '='] ++ rest) = _)
    · exact hclosed (fun _ => rfl : ∀ rest, Lexeme.next? '(' (['?', '!'] ++ rest) = _)
  | lookbehind negative =>
    cases negative
    · exact hclosed (fun _ => rfl : ∀ rest, Lexeme.next? '(' (['?', '<', '='] ++ rest) = _)
    · exact hclosed (fun _ => rfl : ∀ rest, Lexeme.next? '(' (['?', '<', '!'] ++ rest) = _)

/-- An assertion about the text around that one character of a word satisfies. -/
def lookText (opening : GroupOpening) : List Char :=
  opening.text ++ (setText false NamedSet.word.codes ++ [')'])

theorem closed_look {opening : GroupOpening} (h : opening ≠ .named) :
    ∃ xs?, Lexer.backtracking.Closed (lookText opening) xs? := by
  obtain ⟨xs?, hopen⟩ := closed_opening h
  obtain ⟨y?, hset⟩ := Lexer.whole_set (x := .backtracking) .word false
  have hclose : Lexer.backtracking.Closed [')'] (some [.closeGroup]) := .one fun _ => rfl
  exact ⟨_, hopen.append (hset.closed.append hclose)⟩

/-- A boundary is written as two alternatives that look both ways for a character of a word. -/
theorem text_boundary (negated : Bool) : Token.text .backtracking (.boundary negated) =
    GroupOpening.plain.text ++ (lookText (.lookbehind false) ++ (lookText (.lookahead (!negated)) ++
      ('|' :: (lookText (.lookbehind true) ++ (lookText (.lookahead negated) ++ [')']))))) := by
  cases negated <;> decide

theorem closed_boundary (negated : Bool) :
    ∃ xs?, Lexer.backtracking.Closed (Token.text .backtracking (.boundary negated)) xs? := by
  have hbar : Lexer.backtracking.Closed ['|'] (some [.bar]) := .one fun _ => rfl
  have hclose : Lexer.backtracking.Closed [')'] (some [.closeGroup]) := .one fun _ => rfl
  have hplain : Lexer.backtracking.Closed GroupOpening.plain.text (some [.openGroup .plain]) :=
    .one fun _ => rfl
  have hahead : ∀ negative, ∃ xs?,
      Lexer.backtracking.Closed (lookText (.lookahead negative)) xs? :=
    fun _ => closed_look GroupOpening.noConfusion
  have hbehind : ∀ negative, ∃ xs?,
      Lexer.backtracking.Closed (lookText (.lookbehind negative)) xs? :=
    fun _ => closed_look GroupOpening.noConfusion
  obtain ⟨as?, hafterWord⟩ := hbehind false
  obtain ⟨bs?, hleft⟩ := hahead (!negated)
  obtain ⟨cs?, hafterOther⟩ := hbehind true
  obtain ⟨ds?, hright⟩ := hahead negated
  rw [text_boundary]
  exact ⟨_, hplain.append (hafterWord.append (hleft.append (hbar.append
    (hafterOther.append (hright.append hclose)))))⟩

/-- The backtracking matcher reads every token apart from what follows it, if it ends before
that. -/
theorem splits_token {t : Token} (hscanned : Scanned (t :: ts))
    (hends : t.Ends .backtracking (ts.flatMap (Token.text .backtracking)) after)
    (hmark : after.head? ≠ some '?')
    (rest : ∀ us, us <:+ ts →
      Lexer.backtracking.Splits (us.flatMap (Token.text .backtracking)) after) :
    Lexer.backtracking.Splits (t.text .backtracking ++ ts.flatMap (Token.text .backtracking))
      after := by
  have hrest := rest ts (List.suffix_refl ts)
  cases t with
  | raw c => exact splits_raw hscanned hends hmark rest
  | group opening =>
    by_cases hnamed : opening = .named
    · subst hnamed
      refine Lexer.splits_named (fun name => .openGroup (.capture (some name))) (fun cs => ?_)
        (fun _ => backslash_not_mem_of_isName) hscanned.2.2 hends rest
      show (Lexeme.opening? ('?' :: 'P' :: '<' :: cs)).map _ = _
      rw [opening?_named]
      cases before? '>' cs with
      | none => rfl
      | some r =>
        simp only [Option.bind_some]
        split <;> rfl
    · obtain ⟨xs?, hclosed⟩ := closed_opening hnamed
      exact .closed hclosed hrest
  | boundary negated =>
    obtain ⟨xs?, hclosed⟩ := closed_boundary negated
    exact .closed hclosed hrest
  | backref digits => exact splits_backref hscanned.1 hscanned.2.2 hends rest
  | namedBackref name =>
    obtain ⟨inner, hinner, rfl⟩ := hscanned.1
    have hnamed : Lexer.backtracking.Closed ('\\' :: 'k' :: '<' :: (inner ++ ['>']))
        (some [.namedBackref inner]) := by
      refine .one fun after => ?_
      show (before? '>' (inner ++ ['>'] ++ after)).map _ = _
      rw [List.append_assoc, List.singleton_append, before?_append hinner]
      rfl
    exact .closed hnamed hrest
  | _ =>
    obtain ⟨lexeme?, hwhole⟩ :=
      Lexer.whole_of_isSet (x := .backtracking) .backtracking hscanned.1 rfl
    exact .closed hwhole.closed hrest

end Tokens

end JsonRules.Pattern.Backtrack
