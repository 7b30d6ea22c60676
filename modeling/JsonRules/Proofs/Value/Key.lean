import JsonRules.Proofs.Number.KeyText
import JsonRules.Proofs.Text.Quoted
import JsonRules.Proofs.Value.Structure
import JsonRules.Value.Kind
import JsonRules.Value.Text
import Mathlib.Data.List.Nodup

/-!
# Canonical keys

Two values have the same canonical key exactly if they are equal. Keys sort the members of objects,
which changes nothing where they are in order already. Of all values only numbers do not end by
themselves; what follows one in a key is a comma or a closing bracket, which no number contains. So
a key followed by such a text is split in one way, and its first character tells the kind of the
value.
-/

namespace JsonRules

namespace Text

/-- The text does not go on with a character that a number's key can have. -/
def Ends (r : List Char) : Prop := ∀ c ∈ r.head?, Number.isKeyChar c = false

theorem ends_nil : Ends [] := nofun

theorem ends_cons {c : Char} {r : List Char} (h : Number.isKeyChar c = false) : Ends (c :: r) := by
  intro d hd
  cases hd
  exact h

def separated {α : Type} (text : α → List Char) : List α → List Char
  | [] => []
  | a :: rest => text a ++ rest.flatMap fun b => ',' :: text b

theorem commas_map {α : Type} (text : α → List Char) (l : List α) :
    commas (l.map text) = separated text l := by
  induction l with
  | nil => rfl
  | cons a rest ih =>
    cases rest with
    | nil => exact (List.append_nil _).symm
    | cons b rest => exact congrArg (text a ++ ',' :: ·) ih

section Separated

variable {α : Type} {text : α → List Char} {R : α → α → Prop} {close : Char}

theorem ends_rest (text : α → List Char) (hclose : Number.isKeyChar close = false) (l : List α)
    (r : List Char) : Ends ((l.flatMap fun b => ',' :: text b) ++ close :: r) := by
  cases l with
  | nil => exact ends_cons hclose
  | cons b rest => exact ends_cons rfl

/-- After its first element a list goes on with a comma or is closed. -/
theorem rest_append_iff (hclose : Number.isKeyChar close = false) (hcomma : close ≠ ',')
    {l m : List α} {r s : List Char}
    (step : ∀ a ∈ l, ∀ b ∈ m, ∀ r s, Ends r → Ends s →
      (text a ++ r = text b ++ s ↔ R a b ∧ r = s)) :
    (l.flatMap fun b => ',' :: text b) ++ close :: r =
        (m.flatMap fun b => ',' :: text b) ++ close :: s ↔ List.Forall₂ R l m ∧ r = s := by
  induction l generalizing m with
  | nil =>
    cases m with
    | nil => simp
    | cons b m => simp [hcomma]
  | cons a l ih =>
    cases m with
    | nil => simp [hcomma.symm]
    | cons b m =>
      have hstep := step a List.mem_cons_self b List.mem_cons_self _ _
        (ends_rest text hclose l r) (ends_rest text hclose m s)
      have hrest := ih fun a ha b hb => step a (List.mem_cons_of_mem _ ha) b
        (List.mem_cons_of_mem _ hb)
      simp only [List.flatMap_cons, List.cons_append, List.append_assoc, List.cons.injEq, true_and,
        hstep, hrest, List.forall₂_cons, and_assoc]

/-- A list in brackets is split in one way if the elements are. -/
theorem separated_append_iff (hclose : Number.isKeyChar close = false) (hcomma : close ≠ ',')
    {l m : List α} {r s : List Char} (head : ∀ a r s, text a ++ r ≠ close :: s)
    (step : ∀ a ∈ l, ∀ b ∈ m, ∀ r s, Ends r → Ends s →
      (text a ++ r = text b ++ s ↔ R a b ∧ r = s)) :
    separated text l ++ close :: r = separated text m ++ close :: s ↔
      List.Forall₂ R l m ∧ r = s := by
  cases l with
  | nil =>
    cases m with
    | nil => simp [separated]
    | cons b m => simpa [separated] using (head b _ _).symm
  | cons a l =>
    cases m with
    | nil => simpa [separated] using head a _ _
    | cons b m =>
      have hstep := step a List.mem_cons_self b List.mem_cons_self _ _
        (ends_rest text hclose l r) (ends_rest text hclose m s)
      have hrest := rest_append_iff (r := r) (s := s) hclose hcomma fun a ha b hb =>
        step a (List.mem_cons_of_mem _ ha) b (List.mem_cons_of_mem _ hb)
      simp only [separated, List.append_assoc, hstep, hrest, List.forall₂_cons, and_assoc]

end Separated

theorem quote_keyChar_append_iff {a b : String} {r s : List Char} :
    quote keyChar a ++ r = quote keyChar b ++ s ↔ a = b ∧ r = s :=
  ⟨quote_keyChar_append_inj, by rintro ⟨rfl, rfl⟩; rfl⟩

end Text

open Text (Ends ends_nil separated)

/-- A number's key text ends where the characters of such texts end. -/
theorem Number.keyText_append_iff {m n : Number} {r s : List Char} (hr : Ends r) (hs : Ends s) :
    m.keyText ++ r = n.keyText ++ s ↔ m.scaled = n.scaled ∧ r = s := by
  -- a part of one text beyond the other would begin what follows the other
  have stop : ∀ {n : Number} {l a t s : List Char}, Ends t → n.keyText = l ++ a → t = a ++ s →
      a = [] := by
    intro n l a t s ht hn hts
    cases a with
    | nil => rfl
    | cons c a =>
      have hc := n.keyText_chars c (hn ▸ List.mem_append_right _ List.mem_cons_self)
      rw [ht c (by rw [hts]; rfl)] at hc
      cases hc
  rw [← keyText_eq_iff]
  constructor
  · intro h
    rcases List.append_eq_append_iff.1 h with ⟨a, hn, hra⟩ | ⟨a, hm, hsa⟩
    · obtain rfl := stop hr hn hra
      exact ⟨by rw [hn, List.append_nil], hra⟩
    · obtain rfl := stop hs hm hsa
      exact ⟨by rw [hm, List.append_nil], hsa.symm⟩
  · rintro ⟨h, rfl⟩
    rw [h]

namespace Value

theorem writeItems_eq (style : ValueStyle) (items : List Value) :
    writeItems style items = items.map (write style) := by
  induction items with
  | nil => rfl
  | cons v rest ih => rw [writeItems, ih, List.map_cons]

theorem writeFields_eq (style : ValueStyle) (fields : Fields) :
    writeFields style fields = fields.map fun m => (m.1, m.2.write style) := by
  induction fields with
  | nil => rfl
  | cons m rest ih => rw [writeFields, ih, List.map_cons]

/-- The members of an object are sorted already. -/
theorem arrange_key {fields : Fields} (h : Fields.Sorted fields) :
    ValueStyle.key.arrange (writeFields .key fields) = writeFields .key fields := by
  have hkeys : (writeFields .key fields).Pairwise fun m n => m.1 ≤ n.1 := by
    rw [writeFields_eq, List.pairwise_map]
    exact (List.pairwise_map.1 h).imp Std.le_of_lt
  exact List.mergeSort_of_pairwise (hkeys.imp decide_eq_true)

theorem sorted_arrange_key (members : List (String × List Char)) :
    (ValueStyle.key.arrange members).Pairwise fun m n => m.1 ≤ n.1 := by
  have htrans : ∀ a b c : String × List Char, decide (a.1 ≤ b.1) = true →
      decide (b.1 ≤ c.1) = true → decide (a.1 ≤ c.1) = true := fun a b c hab hbc =>
    decide_eq_true (Std.le_trans (of_decide_eq_true hab) (of_decide_eq_true hbc))
  have htotal : ∀ a b : String × List Char, (decide (a.1 ≤ b.1) || decide (b.1 ≤ a.1)) = true := by
    simp [Std.le_total]
  exact (List.pairwise_mergeSort htrans htotal members).imp of_decide_eq_true

theorem arrange_key_congr {l m : List (String × List Char)} (hperm : l.Perm m)
    (hkeys : (l.map Prod.fst).Nodup) : ValueStyle.key.arrange l = ValueStyle.key.arrange m := by
  have hl : (ValueStyle.key.arrange l).Perm l := List.mergeSort_perm _ _
  have hm : (ValueStyle.key.arrange m).Perm m := List.mergeSort_perm _ _
  refine (hl.trans (hperm.trans hm.symm)).eq_of_pairwise (fun a b ha hb hab hba => ?_)
    (sorted_arrange_key l) (sorted_arrange_key m)
  exact List.inj_on_of_nodup_map hkeys (hl.mem_iff.1 ha) (hperm.mem_iff.2 (hm.mem_iff.1 hb))
    (Std.le_antisymm hab hba)

theorem write_arr (items : List Value) :
    (arr items).write .key = '[' :: (separated (write .key) items ++ [']']) := by
  rw [write, writeItems_eq, Text.commas_map]
  rfl

theorem write_obj {fields : Fields} (h : Fields.Sorted fields) :
    (obj fields).write .key =
      '{' :: (separated (fun m => ValueStyle.key.member (m.1, m.2.write .key)) fields ++ ['}']) := by
  rw [write, arrange_key h, writeFields_eq, List.map_map, Text.commas_map]
  rfl

/-- The kind of a value whose key starts with the given character. -/
def kindAt (c : Char) : Kind :=
  if c = 'n' then .null else if c = 't' ∨ c = 'f' then .boolean else if c = '"' then .string
  else if c = '[' then .array else if c = '{' then .object else .number

theorem kindAt_of_number {c : Char} (h : c.isDigit = true ∨ c = '-') :
    kindAt c = .number ∧ c ≠ ']' ∧ c ≠ '}' := by
  have ne : ∀ d : Char, d.isDigit = false → d ≠ '-' → c ≠ d := by
    rintro d hd hm rfl
    rcases h with h | h
    · rw [hd] at h; cases h
    · exact hm h
  refine ⟨?_, ne _ (by decide) (by decide), ne _ (by decide) (by decide)⟩
  rw [kindAt, if_neg (ne 'n' (by decide) (by decide)),
    if_neg (not_or.2 ⟨ne 't' (by decide) (by decide), ne 'f' (by decide) (by decide)⟩),
    if_neg (ne '"' (by decide) (by decide)), if_neg (ne '[' (by decide) (by decide)),
    if_neg (ne '{' (by decide) (by decide))]

theorem write_head (v : Value) :
    ∃ c t, v.write .key = c :: t ∧ kindAt c = v.kind ∧ c ≠ ']' ∧ c ≠ '}' := by
  cases v with
  | null => exact ⟨'n', _, rfl, rfl, by decide, by decide⟩
  | bool b =>
    cases b
    · exact ⟨'f', _, rfl, rfl, by decide, by decide⟩
    · exact ⟨'t', _, rfl, rfl, by decide, by decide⟩
  | num n =>
    obtain ⟨c, t, h, hc⟩ := n.keyText_head
    exact ⟨c, t, h, kindAt_of_number hc⟩
  | str s => exact ⟨'"', _, rfl, rfl, by decide, by decide⟩
  | arr items => exact ⟨'[', _, rfl, rfl, by decide, by decide⟩
  | obj fields => exact ⟨'{', _, rfl, rfl, by decide, by decide⟩

theorem kind_eq_of_write {v w : Value} {r s : List Char}
    (h : v.write .key ++ r = w.write .key ++ s) : v.kind = w.kind := by
  obtain ⟨c, t, hv, hc, -⟩ := v.write_head
  obtain ⟨d, u, hw, hd, -⟩ := w.write_head
  rw [hv, hw] at h
  rw [← hc, ← hd, (List.cons.inj h).1]

theorem kind_eq_of_equal {v w : Value} (h : v.equal w = true) : v.kind = w.kind := by
  cases v <;> cases w <;> first | rfl | cases h

/-- Keys of the values can be split from what follows them in one way, up to equality. -/
abbrev Splits (v w : Value) : Prop :=
  ∀ {r s : List Char}, Ends r → Ends s →
    (v.write .key ++ r = w.write .key ++ s ↔ v.equal w = true ∧ r = s)

theorem splits_arr {xs ys : List Value} (h : ∀ x ∈ xs, ∀ y ∈ ys, Splits x y) :
    Splits (arr xs) (arr ys) := by
  intro r s _ _
  rw [equal_arr, write_arr, write_arr]
  simp only [List.cons_append, List.append_assoc, List.cons.injEq, true_and, List.nil_append]
  refine Text.separated_append_iff (by decide) (by decide) ?_ ?_
  · intro x r s hx
    obtain ⟨c, t, hc, -, hclose, -⟩ := x.write_head
    rw [hc] at hx
    exact hclose (List.cons.inj hx).1
  · intro x hx y hy r s hr hs
    exact h x hx y hy hr hs

theorem splits_obj {fs gs : Fields} (hf : Fields.Sorted fs) (hg : Fields.Sorted gs)
    (h : ∀ m ∈ fs, ∀ n ∈ gs, Splits m.2 n.2) : Splits (obj fs) (obj gs) := by
  intro r s _ _
  rw [equal_obj hf hg, write_obj hf, write_obj hg]
  simp only [List.cons_append, List.append_assoc, List.cons.injEq, true_and, List.nil_append]
  refine Text.separated_append_iff (by decide) (by decide) ?_ ?_
  · intro m r s hm
    exact absurd (List.cons.inj hm).1 (by decide)
  · intro m hm n hn r s hr hs
    simp only [ValueStyle.member, List.append_assoc, List.cons_append]
    rw [show ValueStyle.key.string = Text.quote Text.keyChar from rfl,
      Text.quote_keyChar_append_iff, List.cons.injEq, and_assoc]
    simp only [true_and]
    exact and_congr_right fun _ => h m hm n hn hr hs

/-- Both sides tell the kind. -/
theorem splits_of_kind {v w : Value} (h : v.kind = w.kind → Splits v w) : Splits v w := by
  intro r s hr hs
  exact ⟨fun hw => (h (kind_eq_of_write hw) hr hs).1 hw,
    fun he => (h (kind_eq_of_equal he.1) hr hs).2 he⟩

theorem splits (v : Value) : ∀ w, v.Ordered → w.Ordered → Splits v w := by
  induction v using byParts with
  | null =>
    intro w _ _
    refine splits_of_kind fun hk r s _ _ => ?_
    cases w with
    | null => simp [write, equal]
    | _ => cases hk
  | bool b =>
    intro w _ _
    refine splits_of_kind fun hk r s _ _ => ?_
    cases w with
    | bool c => cases b <;> cases c <;> simp [write, equal]
    | _ => cases hk
  | num m =>
    intro w _ _
    refine splits_of_kind fun hk r s hr hs => ?_
    cases w with
    | num n =>
      rw [equal_num]
      exact Number.keyText_append_iff hr hs
    | _ => cases hk
  | str a =>
    intro w _ _
    refine splits_of_kind fun hk r s _ _ => ?_
    cases w with
    | str b =>
      rw [equal, beq_iff_eq]
      exact Text.quote_keyChar_append_iff
    | _ => cases hk
  | arr xs ih =>
    intro w hv hw
    refine splits_of_kind fun hk => ?_
    cases w with
    | arr ys =>
      exact splits_arr fun x hx y hy => ih x hx y (ordered_arr.1 hv x hx) (ordered_arr.1 hw y hy)
    | _ => cases hk
  | obj fs ih =>
    intro w hv hw
    refine splits_of_kind fun hk => ?_
    cases w with
    | obj gs =>
      obtain ⟨hfs, hf⟩ := ordered_obj.1 hv
      obtain ⟨hgs, hg⟩ := ordered_obj.1 hw
      exact splits_obj hfs hgs fun m hm n hn => ih m hm n.2 (hf m hm) (hg n hn)
    | _ => cases hk

theorem key_eq_iff {v w : Value} (hv : v.Ordered) (hw : w.Ordered) :
    v.key = w.key ↔ v.equal w = true := by
  have h := splits v w hv hw ends_nil ends_nil
  simp only [List.append_nil, and_true] at h
  rw [key, key, String.ofList_inj, h]

/-- The order of its members does not matter to the key of an object. -/
theorem key_obj_perm {fs gs : Fields} (hperm : fs.Perm gs) (hkeys : (fs.map Prod.fst).Nodup) :
    (obj fs).key = (obj gs).key := by
  have htexts : (writeFields .key fs).Perm (writeFields .key gs) := by
    rw [writeFields_eq, writeFields_eq]
    exact hperm.map _
  have hnodup : ((writeFields .key fs).map Prod.fst).Nodup := by
    rw [writeFields_eq, List.map_map]
    exact hkeys
  unfold key
  rw [write, write, arrange_key_congr htexts hnodup]

/-- Two values are equal exactly if they share their key; so equality is an equivalence. -/
theorem equal_iff_key_eq :
    (∀ a b : Json, a.1.equal b.1 = true ↔ a.1.key = b.1.key) ∧
      Equivalence fun a b : Json => a.1.equal b.1 = true := by
  have h : ∀ a b : Json, a.1.equal b.1 = true ↔ a.1.key = b.1.key := fun a b =>
    (key_eq_iff a.2 b.2).symm
  refine ⟨h, ⟨fun a => (h a a).2 rfl, fun {a b} hab => ?_, fun {a b c} hab hbc => ?_⟩⟩
  · exact (h b a).2 ((h a b).1 hab).symm
  · exact (h a c).2 (((h a b).1 hab).trans ((h b c).1 hbc))

end Value

end JsonRules
