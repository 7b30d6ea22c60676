import JsonRules.Proofs.Pattern.ClassGrammar
import Mathlib.Data.List.TakeWhile

/-!
# What scanned tokens are written like

The tokens of a pattern carry texts of a certain form, and so does what they are written as: a token
is written as a single character, or it begins with a backslash, a bracket or a parenthesis. A text
without these three thus ends where a token ends, and so does one up to a `>` before which there is
no backslash.
-/

namespace JsonRules.Pattern

open Unicode (CodeSet)

section Form

/-- The text that the token carries is one that scanning gives it. -/
def Token.IsScanned : Token → Prop
  | raw c => c ≠ '\\' ∧ c ≠ '['
  | backref digits => digits ≠ [] ∧ ∀ c ∈ digits, c.isDigit = true
  | namedBackref name => ∃ inner, '>' ∉ inner ∧ name = '<' :: (inner ++ ['>'])
  | property text => IsPropertyText text
  | charClass _ items => ∀ i ∈ items, i.IsWritten
  | _ => True

/-- Tokens as scanning gives them: none that opens a group is followed by a `?`. -/
def Scanned : List Token → Prop
  | [] => True
  | t :: ts => t.IsScanned ∧ (t = .raw '(' → ts.head? ≠ some (.raw '?')) ∧ Scanned ts

theorem Scanned.suffix {ts us : List Token} (h : Scanned ts) (hs : us <:+ ts) : Scanned us := by
  induction ts with
  | nil => rwa [List.suffix_nil.1 hs]
  | cons t ts ih =>
    rcases List.suffix_cons_iff.1 hs with rfl | hs
    · exact h
    · exact ih h.2.2 hs

theorem Scanned.of_append {ts us : List Token} (h : Scanned (ts ++ us)) : Scanned ts := by
  induction ts with
  | nil => trivial
  | cons t ts ih =>
    refine ⟨h.1, fun hparen hhead => h.2.1 hparen ?_, ih h.2.2⟩
    cases ts with
    | nil => cases hhead
    | cons u ts => exact hhead

theorem EscapeReads.isScanned {cs rest : List Char} {t : Token} (h : EscapeReads cs t rest) :
    t.IsScanned := by
  cases h with
  | backref isDigit =>
    exact ⟨List.cons_ne_nil _ _, List.forall_mem_cons.2
      ⟨isDigit_of_le isDigit.1 isDigit.2, fun _ => List.mem_takeWhile_imp⟩⟩
  | named closed => exact ⟨_, closed, rfl⟩
  | property isProperty read => exact read.isPropertyText isProperty
  | _ => trivial

theorem TokenReads.isScanned {c : Char} {cs rest : List Char} {t : Token}
    (h : TokenReads c cs t rest) : t.IsScanned := by
  cases h with
  | escape read => exact read.isScanned
  | charClass read =>
    cases read with
    | intro _ read joined =>
      exact isWritten_of_ofAtoms (isWritten_of_classAtoms (classAtoms_eq_ok.2 read)) joined
  | parenthesis => exact ⟨by decide, by decide⟩
  | raw plain => exact ⟨fun h => plain (h ▸ by decide), fun h => plain (h ▸ by decide)⟩
  | _ => trivial

/-- A character that is taken as it stands is the first one of the text, and no parenthesis before
a `?`. -/
theorem TokenReads.of_raw {c d : Char} {cs rest : List Char} (h : TokenReads c cs (.raw d) rest) :
    d = c ∧ (d = '(' → rest.head? ≠ some '?') := by
  cases h with
  | escape read => cases read
  | charClass read => cases read
  | parenthesis plain => exact ⟨rfl, fun _ => plain⟩
  | raw plain => exact ⟨rfl, fun h => absurd (by decide) (h ▸ plain)⟩

theorem scanned_of_scan {cs : List Char} {ts : List Token} (h : Token.scan cs = .ok ts) :
    Scanned ts := by
  rw [scan_eq_ok] at h
  induction h with
  | nil => trivial
  | cons first more ih =>
    refine ⟨first.isScanned, fun hparen hhead => ?_, ih⟩
    rw [hparen] at first
    refine first.of_raw.2 rfl ?_
    -- the token after the parenthesis is the first character of what is left
    cases more with
    | nil => cases hhead
    | cons second _ =>
      rw [Option.some.inj hhead] at second
      rw [second.of_raw.1]
      rfl

end Form

section Texts

variable {dialect : Dialect}

/-- What the text of a token begins with that is longer than a character. -/
def textMarks : List Char := ['\\', '[', '(']

/-- A code point is written as itself unless its text begins with a mark. -/
theorem codeText_form (code : Nat) : ∃ c cs, codeText code = c :: cs ∧
    (c ∈ textMarks ∨ (cs = [] ∧ c = Char.ofNat code ∧ isMeta c = false ∧
      Unicode.isWhiteSpace c = false)) := by
  have hform := codeForm code
  generalize codeText code = text at hform ⊢
  cases hform with
  | surrogate => exact ⟨'[', _, rfl, .inl (by decide)⟩
  | number => exact ⟨'\\', _, rfl, .inl (by decide)⟩
  | escaped => exact ⟨'\\', _, rfl, .inl (by decide)⟩
  | @plain c isPlain isShown =>
    exact ⟨c, [], rfl, .inr ⟨rfl, (Char.ofNat_toNat c).symm, isPlain, isShown⟩⟩

theorem IsPropertyText.head {text : List Char} (h : IsPropertyText text) :
    ∃ cs, text = '\\' :: cs := by
  cases h <;> exact ⟨_, rfl⟩

/-- A token is written as one character, or begins with a mark. -/
theorem Token.text_form (dialect : Dialect) {t : Token} (h : t.IsScanned) :
    ∃ c cs, t.text dialect = c :: cs ∧
    (c ∈ textMarks ∨ (cs = [] ∧ (t = .raw c ∨ isMeta c = false))) := by
  cases t with
  | raw c => exact ⟨c, [], rfl, .inr ⟨rfl, .inl rfl⟩⟩
  | group opening =>
    cases opening with
    | lookahead negative => cases negative <;> exact ⟨'(', _, rfl, .inl (by decide)⟩
    | lookbehind negative => cases negative <;> exact ⟨'(', _, rfl, .inl (by decide)⟩
    | _ => exact ⟨'(', _, rfl, .inl (by decide)⟩
  | boundary negated =>
    cases negated <;> cases dialect <;> exact ⟨'(', _, rfl, .inl (by decide)⟩
  | property text =>
    obtain ⟨cs, rfl⟩ := IsPropertyText.head h
    exact ⟨'\\', cs, rfl, .inl (by decide)⟩
  | code n =>
    obtain ⟨c, cs, htext, hmark | ⟨hcs, -, hmeta, -⟩⟩ := codeText_form n
    · exact ⟨c, cs, htext, .inl hmark⟩
    · exact ⟨c, cs, htext, .inr ⟨hcs, .inr hmeta⟩⟩
  | charClass negated items =>
    obtain ⟨cs, htext, -⟩ := class?_classText h negated
    exact ⟨'[', cs, htext, .inl (by decide)⟩
  | set named negated => exact ⟨'[', _, rfl, .inl (by decide)⟩
  | dot => exact ⟨'[', _, rfl, .inl (by decide)⟩
  | _ => exact ⟨'\\', _, rfl, .inl (by decide)⟩

/-- A text without marks ends where a token ends. -/
theorem exists_suffix_of_run {ts : List Token} (h : Scanned ts) {run rest : List Char}
    (htext : ts.flatMap (Token.text dialect) = run ++ rest) (hrun : ∀ c ∈ run, c ∉ textMarks) :
    ∃ us, us <:+ ts ∧ rest = us.flatMap (Token.text dialect) := by
  induction run generalizing ts with
  | nil => exact ⟨ts, List.suffix_refl ts, htext.symm⟩
  | cons c run ih =>
    obtain ⟨hc, hmarks⟩ := List.forall_mem_cons.1 hrun
    cases ts with
    | nil => cases htext
    | cons t ts =>
      obtain ⟨d, cs, hform, hd⟩ := Token.text_form dialect h.1
      rw [List.flatMap_cons, hform, List.cons_append, List.cons_append] at htext
      obtain ⟨rfl, hmore⟩ := List.cons.inj htext
      rw [(hd.resolve_left hc).1, List.nil_append] at hmore
      obtain ⟨us, hus, hrest⟩ := ih h.2.2 hmore hmarks
      exact ⟨us, hus.trans (List.suffix_cons t ts), hrest⟩

/-- Only a `?` that is taken as it stands is written with a `?` at its beginning. -/
theorem head_flatMap_text (dialect : Dialect) {ts : List Token} (h : Scanned ts)
    (hts : ts.head? ≠ some (.raw '?')) :
    (ts.flatMap (Token.text dialect)).head? ≠ some '?' := by
  cases ts with
  | nil => exact fun hhead => by cases hhead
  | cons t ts =>
    obtain ⟨c, cs, hform, hc⟩ := Token.text_form dialect h.1
    rw [List.flatMap_cons, hform]
    rintro heq
    obtain rfl : c = '?' := Option.some.inj heq
    rcases hc with hmark | ⟨-, rfl | hmeta⟩
    · exact absurd hmark (by decide)
    · exact hts rfl
    · cases hmeta

/-- There is a backslash before each `>`. -/
def Guarded (cs : List Char) : Prop := ∀ pre post, cs = pre ++ '>' :: post → '\\' ∈ pre

theorem guarded_of_not_mem {cs : List Char} (h : '>' ∉ cs) : Guarded cs := by
  rintro pre post rfl
  exact absurd (List.mem_append_right _ List.mem_cons_self) h

theorem guarded_backslash (cs : List Char) : Guarded ('\\' :: cs) := by
  intro pre post heq
  cases pre with
  | nil => cases heq
  | cons c pre =>
    rw [← (List.cons.inj heq).1]
    exact List.mem_cons_self

theorem Guarded.append {cs ds : List Char} (hcs : Guarded cs) (hds : Guarded ds) :
    Guarded (cs ++ ds) := by
  intro pre post heq
  rcases List.append_eq_append_iff.1 heq with ⟨more, rfl, hds'⟩ | ⟨more, hcs', hmore⟩
  · exact List.mem_append_right _ (hds _ _ hds')
  · cases more with
    | nil => exact absurd (hds [] post hmore.symm) List.not_mem_nil
    | cons c more =>
      obtain ⟨rfl, -⟩ := List.cons.inj hmore
      exact hcs _ _ hcs'

theorem guarded_rangeText (lo hi : Nat) : Guarded (rangeText lo hi) := by
  have hcode : ∀ code, Guarded (classCodeText code) := by
    intro code
    unfold classCodeText
    simp only
    split
    · next h =>
      refine guarded_of_not_mem ?_
      rw [List.mem_singleton]
      intro heq
      rw [← heq] at h
      exact absurd h.2 (by decide)
    · exact guarded_backslash _
  have hplain : ∀ lo hi, Guarded (plainRangeText lo hi) := by
    intro lo hi
    unfold plainRangeText
    split
    · exact guarded_of_not_mem List.not_mem_nil
    split
    · exact hcode lo
    · have hdash : Guarded ['-'] := guarded_of_not_mem (by decide)
      exact (hcode lo).append (hdash.append (hcode hi))
  exact (hplain _ _).append (hplain _ _)

theorem Guarded.flatMap {α : Type} {f : α → List Char} {l : List α} (h : ∀ a ∈ l, Guarded (f a)) :
    Guarded (l.flatMap f) := by
  induction l with
  | nil => exact guarded_of_not_mem List.not_mem_nil
  | cons a l ih =>
    obtain ⟨ha, hl⟩ := List.forall_mem_cons.1 h
    rw [List.flatMap_cons]
    exact ha.append (ih hl)

theorem guarded_classText {items : List ClassItem} (h : ∀ i ∈ items, i.IsWritten)
    (negated : Bool) : Guarded (classText negated items) := by
  have hitem : ∀ i ∈ items, Guarded i.text := by
    intro i hmem
    cases i with
    | range lo hi => exact guarded_rangeText lo hi
    | dash => exact guarded_backslash _
    | set codes => exact .flatMap fun r _ => guarded_rangeText r.lo r.hi
    | property text =>
      obtain ⟨cs, rfl⟩ := IsPropertyText.head (h _ hmem)
      exact guarded_backslash cs
  unfold classText
  simp only
  split
  · cases negated <;> exact guarded_of_not_mem (by decide)
  · have hopen : Guarded ('[' :: if negated then ['^'] else []) := by
      cases negated <;> exact guarded_of_not_mem (by decide)
    have hclose : Guarded [']'] := guarded_of_not_mem (by decide)
    exact (hopen.append (.flatMap hitem)).append hclose

theorem guarded_codeText (code : Nat) (h : codeText code ≠ ['>']) : Guarded (codeText code) := by
  have hform := codeForm code
  generalize codeText code = text at hform h ⊢
  cases hform with
  | surrogate => exact guarded_of_not_mem (by decide)
  | number => exact guarded_backslash _
  | escaped => exact guarded_backslash _
  | plain =>
    refine guarded_of_not_mem fun hmem => h ?_
    rw [List.mem_singleton.1 hmem]

/-- Before each `>` in the text of a token there is a backslash, unless it is the whole text. -/
theorem Token.guarded_text (dialect : Dialect) {t : Token} (h : t.IsScanned) :
    t.text dialect = ['>'] ∨ Guarded (t.text dialect) := by
  have hgroup : ∀ opening : GroupOpening, '>' ∉ opening.text := by
    rintro (- | - | (- | -) | (- | -)) <;> decide
  have hset : ∀ (named : NamedSet) (negated : Bool), '>' ∉ setText negated named.codes := by
    intro named negated
    cases named <;> cases negated <;> decide
  rw [or_iff_not_imp_left]
  intro hne
  cases t with
  | raw c =>
    refine guarded_of_not_mem fun hmem => hne ?_
    rw [List.mem_singleton.1 hmem]
    rfl
  | group opening => exact guarded_of_not_mem (hgroup opening)
  | boundary negated => cases negated <;> cases dialect <;> exact guarded_of_not_mem (by decide)
  | property text =>
    obtain ⟨cs, rfl⟩ := IsPropertyText.head h
    exact guarded_backslash cs
  | code n => exact guarded_codeText n hne
  | charClass negated items => exact guarded_classText h negated
  | set named negated => exact guarded_of_not_mem (hset named negated)
  | dot =>
    have hdot : '>' ∉ dotText := by decide
    exact guarded_of_not_mem hdot
  | _ => exact guarded_backslash _

/-- A text without backslashes up to a `>` ends where a token ends. -/
theorem exists_suffix_of_name {ts : List Token} (h : Scanned ts) {name rest : List Char}
    (htext : ts.flatMap (Token.text dialect) = name ++ '>' :: rest) (hname : '\\' ∉ name) :
    ∃ us, us <:+ ts ∧ rest = us.flatMap (Token.text dialect) := by
  induction ts generalizing name with
  | nil => exact absurd htext.symm (by simp)
  | cons t ts ih =>
    rw [List.flatMap_cons] at htext
    -- the first token lies within the name, or it reaches the `>` and then is nothing else
    rcases List.append_eq_append_iff.1 htext with ⟨more, rfl, hmore⟩ | ⟨more, hfirst, hmore⟩
    · obtain ⟨us, hus, hrest⟩ := ih h.2.2 hmore fun hmem => hname (List.mem_append_right _ hmem)
      exact ⟨us, hus.trans (List.suffix_cons t ts), hrest⟩
    · cases more with
      | nil =>
        have hstart : ts.flatMap (Token.text dialect) = [] ++ '>' :: rest := hmore.symm
        obtain ⟨us, hus, hrest⟩ := ih h.2.2 hstart List.not_mem_nil
        exact ⟨us, hus.trans (List.suffix_cons t ts), hrest⟩
      | cons c more =>
        obtain ⟨rfl, hrest⟩ := List.cons.inj hmore
        rcases Token.guarded_text dialect h.1 with hsingle | hguarded
        · rw [hsingle] at hfirst
          cases name with
          | nil =>
            rw [← (List.cons.inj hfirst).2] at hrest
            exact ⟨ts, List.suffix_cons t ts, hrest⟩
          | cons d name => exact absurd (List.cons.inj hfirst).2 (by simp)
        · exact absurd (hguarded _ _ hfirst) hname

end Texts

end JsonRules.Pattern
