import JsonRules.Pattern.Absorption
import JsonRules.Proofs.Pattern.Lexing

/-!
# Where a text of tokens can be split

A text is read in two parts if nothing that begins in the first part goes on in the second one. What
can go on is listed in `Token.Ends`: the number of a reference, the counts of a repetition and the
name of a group. From how each reader takes one token of such a text, `splits_of_step` gets how it
takes all of them.
-/

namespace JsonRules.Pattern

section Runs

variable {p q : Char → Bool} {cs ds : List Char}

/-- A run of the given characters in the first text ends before the second text. -/
def Stops (p : Char → Bool) (cs ds : List Char) : Prop :=
  (∀ c ∈ cs, p c = true) → ∀ c, ds.head? = some c → p c = false

theorem Stops.weaken (h : Stops p cs ds) (hq : ∀ c, q c = true → p c = true) : Stops q cs ds := by
  intro hcs c hc
  have hp := h (fun d hd => hq d (hcs d hd)) c hc
  rw [Bool.eq_false_iff] at hp ⊢
  exact mt (hq c) hp

theorem Stops.tail {c : Char} (h : Stops p (c :: cs) ds) (hc : p c = true) : Stops p cs ds :=
  fun hcs => h (List.forall_mem_cons.2 ⟨hc, hcs⟩)

theorem Stops.takeWhile_append (h : Stops p cs ds) :
    (cs ++ ds).takeWhile p = cs.takeWhile p := by
  induction cs with
  | nil =>
    cases ds with
    | nil => rfl
    | cons d ds =>
      have hd := h (List.forall_mem_nil _) d rfl
      rw [List.nil_append, List.takeWhile_cons, hd]
      rfl
  | cons c cs ih =>
    rw [List.cons_append, List.takeWhile_cons, List.takeWhile_cons]
    cases hc : p c with
    | true => rw [if_pos rfl, if_pos rfl, ih (h.tail hc)]
    | false => rfl

theorem Stops.dropWhile_append (h : Stops p cs ds) :
    (cs ++ ds).dropWhile p = cs.dropWhile p ++ ds := by
  induction cs with
  | nil =>
    cases ds with
    | nil => rfl
    | cons d ds =>
      have hd := h (List.forall_mem_nil _) d rfl
      rw [List.nil_append, List.dropWhile_cons, hd]
      rfl
  | cons c cs ih =>
    rw [List.cons_append, List.dropWhile_cons, List.dropWhile_cons]
    cases hc : p c with
    | true => rw [if_pos rfl, if_pos rfl, ih (h.tail hc)]
    | false => rfl

/-- What is left of a text is its end, and all before it are characters of the given kind. -/
def Leaves (p : Char → Bool) (cs rest : List Char) : Prop :=
  ∃ run, cs = run ++ rest ∧ ∀ c ∈ run, p c = true

theorem Leaves.refl (cs : List Char) : Leaves p cs cs := ⟨[], rfl, List.forall_mem_nil _⟩

theorem Leaves.trans {es : List Char} (h : Leaves p cs ds) (h' : Leaves p ds es) :
    Leaves p cs es := by
  obtain ⟨run, rfl, hrun⟩ := h
  obtain ⟨more, rfl, hmore⟩ := h'
  exact ⟨run ++ more, (List.append_assoc _ _ _).symm, List.forall_mem_append.2 ⟨hrun, hmore⟩⟩

theorem Leaves.weaken (h : Leaves p cs ds) (hq : ∀ c, p c = true → q c = true) :
    Leaves q cs ds := by
  obtain ⟨run, htext, hrun⟩ := h
  exact ⟨run, htext, fun c hc => hq c (hrun c hc)⟩

theorem Leaves.cons {c : Char} (h : Leaves p cs ds) (hc : p c = true) : Leaves p (c :: cs) ds := by
  obtain ⟨run, rfl, hrun⟩ := h
  exact ⟨c :: run, rfl, List.forall_mem_cons.2 ⟨hc, hrun⟩⟩

theorem leaves_dropWhile (p : Char → Bool) (cs : List Char) : Leaves p cs (cs.dropWhile p) :=
  ⟨cs.takeWhile p, List.takeWhile_append_dropWhile.symm, fun _ => List.mem_takeWhile_imp⟩

/-- Where a run is left over, the second text begins behind the run. -/
theorem Stops.leaves {rest : List Char} (h : Stops p cs ds) (hrest : Leaves p cs rest) :
    Stops p rest ds := by
  obtain ⟨run, rfl, hrun⟩ := hrest
  exact fun hcs => h (List.forall_mem_append.2 ⟨hrun, hcs⟩)

/-- The second text begins neither like a count nor with a brace if it is reached in a run of counts
from the first one. -/
def Unbounded (dialect : Dialect) (cs ds : List Char) : Prop :=
  Stops (isCountChar dialect) cs ds ∧
    ((∀ c ∈ cs, isCountChar dialect c = true) → ds.head? ≠ some '}')

variable {dialect : Dialect}

theorem Unbounded.leaves {rest : List Char} (h : Unbounded dialect cs ds)
    (hrest : Leaves (isCountChar dialect) cs rest) : Unbounded dialect rest ds := by
  refine ⟨h.1.leaves hrest, fun hall => h.2 ?_⟩
  obtain ⟨run, rfl, hrun⟩ := hrest
  exact List.forall_mem_append.2 ⟨hrun, hall⟩

theorem Unbounded.head (h : Unbounded dialect cs ds) {c : Char}
    (hc : c = '}' ∨ isCountChar dialect c = true) (hcs : cs.head? ≠ some c) :
    (cs ++ ds).head? ≠ some c := by
  cases cs with
  | nil =>
    rcases hc with rfl | hcount
    · exact h.2 (List.forall_mem_nil _)
    · intro hhead
      exact absurd (hcount.symm.trans (h.1 (List.forall_mem_nil _) c hhead)) (by decide)
  | cons d cs => exact hcs

end Runs

section Tokens

/-- What begins with the token ends within the first text or at its end. -/
def Token.Ends (dialect : Dialect) (text after : List Char) : Token → Prop
  | backref _ => Stops Char.isDigit text after
  | raw mark => mark = '{' → Unbounded dialect text after
  | group .named => '>' ∈ text ∨ after = []
  | _ => True

/-- What begins with any of the tokens ends before the given text. -/
def Apart (dialect : Dialect) (after : List Char) : List Token → Prop
  | [] => True
  | t :: ts => t.Ends dialect (ts.flatMap (Token.text dialect)) after ∧ Apart dialect after ts

theorem apart_nil (dialect : Dialect) (ts : List Token) : Apart dialect [] ts := by
  have hstops : ∀ p cs, Stops p cs [] := fun _ _ _ _ hc => by cases hc
  induction ts with
  | nil => trivial
  | cons t ts ih =>
    refine ⟨?_, ih⟩
    cases t with
    | backref digits => exact hstops _ _
    | raw mark => exact fun _ => ⟨hstops _ _, fun _ hhead => by cases hhead⟩
    | group opening =>
      cases opening with
      | named => exact .inr rfl
      | _ => trivial
    | _ => trivial

/-- The text of a code point begins with a character for which a property fails, if the property
fails for the marks and for the code point itself when it is written as it is. -/
theorem head_codeText {p : Char → Bool} {code : Nat} (hmarks : ∀ c ∈ textMarks, p c = false)
    (hplain : isMeta (Char.ofNat code) = false → Unicode.isWhiteSpace (Char.ofNat code) = false →
      p (Char.ofNat code) = false) {after : List Char} {c : Char}
    (hc : (codeText code ++ after).head? = some c) : p c = false := by
  obtain ⟨d, cs, htext, hd⟩ := codeText_form code
  rw [htext] at hc
  obtain rfl : d = c := Option.some.inj hc
  rcases hd with hmark | ⟨-, rfl, isPlain, isShown⟩
  · exact hmarks d hmark
  · exact hplain isPlain isShown

/-- The text of a code point begins with no character that has to be escaped, but for the marks. -/
theorem head_codeText_ne {c : Char} (hmeta : isMeta c = true) (hmark : c ∉ textMarks) (code : Nat)
    (after : List Char) : (codeText code ++ after).head? ≠ some c := by
  intro hhead
  have hne : ∀ d ∈ textMarks, (d == c) = false := fun d hd =>
    beq_eq_false_iff_ne.2 fun heq => hmark (heq ▸ hd)
  refine absurd (head_codeText (p := (· == c)) hne (fun isPlain _ => ?_) hhead) (by simp)
  rw [beq_eq_false_iff_ne]
  intro heq
  rw [heq, hmeta] at isPlain
  cases isPlain

/-- The characters of the bounds of a repetition after its opening brace. -/
def isBoundsChar (dialect : Dialect) (c : Char) : Bool := isCountChar dialect c || c == '}'

theorem isBoundsChar_of_isCountChar {dialect : Dialect} {c : Char}
    (h : isCountChar dialect c = true) : isBoundsChar dialect c = true := by
  rw [isBoundsChar, h, Bool.true_or]

theorem isCountChar_textMarks {dialect : Dialect} : ∀ c ∈ textMarks,
    isCountChar dialect c = false := by
  intro c hc
  simp only [textMarks, List.mem_cons, List.not_mem_nil, or_false] at hc
  rcases hc with rfl | rfl | rfl <;> cases dialect <;> decide

theorem isBoundsChar_textMarks {dialect : Dialect} : ∀ c ∈ textMarks,
    isBoundsChar dialect c = false := by
  intro c hc
  rw [isBoundsChar, isCountChar_textMarks c hc, Bool.false_or]
  simp only [textMarks, List.mem_cons, List.not_mem_nil, or_false] at hc
  rcases hc with rfl | rfl | rfl <;> rfl

/-- What is written after tokens that do not absorb a code point is apart from them. -/
theorem apart_codeText {dialect : Dialect} {code : Nat} {ts : List Token}
    (h : absorbs dialect code ts = false) (after : List Char) :
    Apart dialect (codeText code ++ after) ts := by
  induction ts with
  | nil => trivial
  | cons t ts ih =>
    rw [absorbs, Bool.or_eq_false_iff] at h
    refine ⟨?_, ih h.2⟩
    have hfirst := h.1
    generalize ts.flatMap (Token.text dialect) = text at hfirst
    cases t with
    | backref digits =>
      rw [Token.absorbs, Bool.and_eq_false_iff] at hfirst
      intro hdigits c hc
      have hcode := hfirst.resolve_left (by rw [List.all_eq_true.2 hdigits]; decide)
      exact head_codeText (by simp [textMarks]) (fun _ _ => hcode) hc
    | raw mark =>
      rintro rfl
      rw [Token.absorbs, BEq.rfl, Bool.true_and, Bool.and_eq_false_iff] at hfirst
      refine ⟨fun hcounts c hc => ?_, fun _ => head_codeText_ne rfl (by decide) code after⟩
      have hcode := hfirst.resolve_left (by rw [List.all_eq_true.2 hcounts]; decide)
      refine head_codeText isCountChar_textMarks (fun _ isShown => ?_) hc
      cases dialect with
      | linear => rw [isCountChar, hcode, isShown]; rfl
      | backtracking => rw [isCountChar, hcode]
    | group opening =>
      cases opening with
      | named =>
        rw [Token.absorbs, BEq.rfl, Bool.true_and, Bool.not_eq_false'] at hfirst
        exact .inl (List.contains_iff_mem.1 hfirst)
      | _ => trivial
    | _ => trivial

/-- A reader that takes each token of a text apart takes the whole text apart. -/
theorem Lexer.splits_of_step {L : Type} {x : Lexer L} {dialect : Dialect} {after : List Char}
    (step : ∀ t ts, Scanned (t :: ts) →
      t.Ends dialect (ts.flatMap (Token.text dialect)) after →
      (∀ us, us <:+ ts → x.Splits (us.flatMap (Token.text dialect)) after) →
      x.Splits (t.text dialect ++ ts.flatMap (Token.text dialect)) after)
    {ts : List Token} (h : Scanned ts) (hapart : Apart dialect after ts) :
    x.Splits (ts.flatMap (Token.text dialect)) after := by
  -- a lexeme that begins with one token can end after a later one, hence all ends of the tokens
  have hall : ∀ us, us <:+ ts → x.Splits (us.flatMap (Token.text dialect)) after := by
    induction ts with
    | nil =>
      intro us hus
      rw [List.suffix_nil.1 hus]
      exact .nil after
    | cons t ts ih =>
      intro us hus
      have hsuffixes := ih h.2.2 hapart.2
      rcases List.suffix_cons_iff.1 hus with rfl | hus
      · rw [List.flatMap_cons]
        exact step t ts h hapart.1 hsuffixes
      · exact hsuffixes us hus
  exact hall ts (List.suffix_refl ts)

/-- The token is written as a set of characters. -/
def Token.isSet : Token → Bool
  | bracket | dot | set _ _ | property _ | code _ | charClass _ _ => true
  | _ => false

variable {L : Type} {x : Lexer L} {dialect : Dialect} {ts : List Token} {after : List Char}

theorem Lexer.whole_of_isSet (dialect : Dialect) {t : Token} (h : t.IsScanned)
    (hset : t.isSet = true) : ∃ lexeme?, x.Whole (t.text dialect) lexeme? := by
  cases t with
  | bracket => exact ⟨_, whole_meta (by decide)⟩
  | dot => exact whole_dot
  | set named negated => exact whole_set named negated
  | property text => exact whole_property h
  | code n => exact ⟨_, whole_code n⟩
  | charClass negated items => exact ⟨_, whole_class h negated⟩
  | _ => cases hset

/-- A run without marks at the beginning of a text of tokens ends where a token ends. -/
theorem exists_suffix_of_leaves {p : Char → Bool} (hp : ∀ c ∈ textMarks, p c = false)
    (hts : Scanned ts) {rest : List Char}
    (h : Leaves p (ts.flatMap (Token.text dialect)) rest) :
    ∃ us, us <:+ ts ∧ rest = us.flatMap (Token.text dialect) := by
  obtain ⟨run, htext, hrun⟩ := h
  refine exists_suffix_of_run hts htext fun c hc hmark => ?_
  exact absurd ((hrun c hc).symm.trans (hp c hmark)) (by decide)

variable (x) in
/-- The lexeme at the beginning of a text ends before one of the tokens, or after all of them. -/
def Lexer.Lands (dialect : Dialect) (ts : List Token) (c : Char) (cs : List Char) : Prop :=
  ∀ l rest, x.next? c cs = some (l, rest) →
    ∃ us, us <:+ ts ∧ rest = us.flatMap (Token.text dialect)

theorem Lexer.Lands.refl {c : Char} {lexeme : L}
    (h : x.next? c (ts.flatMap (Token.text dialect)) =
      some (lexeme, ts.flatMap (Token.text dialect))) :
    x.Lands dialect ts c (ts.flatMap (Token.text dialect)) := by
  intro l rest hnext
  rw [h] at hnext
  cases hnext
  exact ⟨ts, List.suffix_refl ts, rfl⟩

theorem Lexer.Whole.lands {cs tail : List Char} {c : Char} {lexeme? : Option L}
    (h : x.Whole cs lexeme?) (htext : cs ++ ts.flatMap (Token.text dialect) = c :: tail) :
    x.Lands dialect ts c tail := by
  obtain ⟨d, more, rfl, h⟩ := h
  rw [List.cons_append] at htext
  obtain ⟨rfl, rfl⟩ := List.cons.inj htext
  intro l rest hnext
  rw [h] at hnext
  obtain ⟨lexeme, -, heq⟩ := Option.map_eq_some_iff.1 hnext
  cases heq
  exact ⟨ts, List.suffix_refl ts, rfl⟩

/-- A lexeme that is read apart from what follows, and that ends where a token ends. -/
theorem Lexer.splits_lexeme {c : Char} {cs : List Char}
    (hcs : ts.flatMap (Token.text dialect) <:+ cs)
    (both : x.next? c (cs ++ after) = (x.next? c cs).map fun r => (r.1, r.2 ++ after))
    (left : x.Lands dialect ts c cs)
    (rest : ∀ us, us <:+ ts → x.Splits (us.flatMap (Token.text dialect)) after) :
    x.Splits (c :: cs) after := by
  cases hnext : x.next? c cs with
  | none =>
    rw [hnext] at both
    exact .refused hnext both
  | some r =>
    obtain ⟨us, hus, hrest⟩ := left r.1 r.2 hnext
    rw [hnext] at both
    refine .next hnext ?_ both (hrest ▸ rest us hus)
    obtain ⟨vs, rfl⟩ := hus
    have hlen := hcs.length_le
    rw [List.flatMap_append, List.length_append] at hlen
    rw [hrest]
    omega

theorem before?_eq {stop : Char} {cs : List Char} {r : List Char × List Char}
    (h : before? stop cs = some r) : cs = r.1 ++ stop :: r.2 ∧ stop ∉ r.1 := by
  induction cs generalizing r with
  | nil => cases h
  | cons c cs ih =>
    unfold before? at h
    split at h
    · next heq =>
      cases h
      exact ⟨congrArg (· :: cs) heq, List.not_mem_nil⟩
    · next hne =>
      obtain ⟨s, hs, rfl⟩ := Option.map_eq_some_iff.1 h
      obtain ⟨htext, hstop⟩ := ih hs
      refine ⟨congrArg (c :: ·) htext, ?_⟩
      rw [List.mem_cons, not_or]
      exact ⟨Ne.symm hne, hstop⟩

/-- The text before a character that is there does not depend on what follows. -/
theorem before?_apart {stop : Char} {cs ds : List Char} (h : stop ∈ cs ∨ ds = []) :
    before? stop (cs ++ ds) = (before? stop cs).map fun r => (r.1, r.2 ++ ds) := by
  rcases h with hmem | rfl
  · obtain ⟨name, rest, rfl, hname⟩ := List.eq_append_cons_of_mem hmem
    rw [List.append_assoc, List.cons_append, before?_append hname, before?_append hname]
    rfl
  · rw [List.append_nil]
    cases before? stop cs <;> simp

/-- A character that is a lexeme whatever follows it. -/
theorem Lexer.splits_char {c : Char} {cs : List Char} {lexeme : L}
    (h : ∀ cs, x.next? c cs = some (lexeme, cs)) (h' : x.Splits cs after) :
    x.Splits (c :: cs) after := by
  have hone : x.Closed [c] (some [lexeme]) :=
    Closed.one fun cs => h cs
  exact .closed hone h'

/-- A parenthesis opens a group whatever follows, as no `?` does. -/
theorem Lexer.lands_parenthesis {lexeme : L}
    (hopen : ∀ cs, cs.head? ≠ some '?' → x.next? '(' cs = some (lexeme, cs))
    (h : Scanned (.raw '(' :: ts)) :
    x.Lands dialect ts '(' (ts.flatMap (Token.text dialect)) :=
  .refl (hopen _ (head_flatMap_text dialect h.2.2 (h.2.1 rfl)))

theorem Lexer.splits_parenthesis {lexeme : L}
    (hopen : ∀ cs, cs.head? ≠ some '?' → x.next? '(' cs = some (lexeme, cs))
    (h : Scanned (.raw '(' :: ts)) (hmark : after.head? ≠ some '?')
    (rest : ∀ us, us <:+ ts → x.Splits (us.flatMap (Token.text dialect)) after) :
    x.Splits ('(' :: ts.flatMap (Token.text dialect)) after := by
  have hhead := head_flatMap_text dialect h.2.2 (h.2.1 rfl)
  refine splits_lexeme (List.suffix_refl _) ?_ (lands_parenthesis hopen h) rest
  rw [hopen _ hhead, hopen _ (head_append hhead hmark)]
  rfl

section Names

variable {isName : List Char → Bool} (named : List Char → L)
  (hopen : ∀ cs, x.next? '(' ('?' :: 'P' :: '<' :: cs) = (before? '>' cs).bind fun r =>
    if isName r.1 then some (named r.1, r.2) else none)
  (hname : ∀ name, isName name = true → '\\' ∉ name) (hts : Scanned ts)

include hopen hname hts

/-- A group is named by the text before a `>`, which is a token or the end of one. -/
theorem Lexer.lands_named :
    x.Lands dialect ts '(' ('?' :: 'P' :: '<' :: ts.flatMap (Token.text dialect)) := by
  intro l left hleft
  rw [hopen] at hleft
  obtain ⟨r, hbefore, hleft⟩ := Option.bind_eq_some_iff.1 hleft
  split at hleft
  · next hvalid =>
    cases hleft
    exact exists_suffix_of_name hts (before?_eq hbefore).1 (hname _ hvalid)
  · cases hleft

/-- A named group is read apart from what follows the text in which its name ends. -/
theorem Lexer.splits_named
    (h : '>' ∈ ts.flatMap (Token.text dialect) ∨ after = [])
    (rest : ∀ us, us <:+ ts → x.Splits (us.flatMap (Token.text dialect)) after) :
    x.Splits ("(?P<".toList ++ ts.flatMap (Token.text dialect)) after := by
  refine splits_lexeme (List.suffix_append ['?', 'P', '<'] _) ?_
    (lands_named named hopen hname hts) rest
  show x.next? '(' ('?' :: 'P' :: '<' :: (ts.flatMap (Token.text dialect) ++ after)) =
    (x.next? '(' ('?' :: 'P' :: '<' :: ts.flatMap (Token.text dialect))).map _
  rw [hopen, hopen, before?_apart h]
  cases before? '>' (ts.flatMap (Token.text dialect)) with
  | none => rfl
  | some r =>
    simp only [Option.map_some, Option.bind_some]
    split <;> rfl

end Names

end Tokens

end JsonRules.Pattern
