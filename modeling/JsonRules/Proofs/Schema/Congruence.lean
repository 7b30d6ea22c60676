import JsonRules.Proofs.Check
import JsonRules.Proofs.Rule.Alike
import JsonRules.Proofs.Rule.Congruence

/-!
# Equal schemas compile alike

Compilation does not see how the numbers of a schema are written. What it reads off a schema are
names, texts, lengths and sizes, which equal values have in common; the literals and borders that it
keeps are only compared with other values, by their exact values.
-/

namespace JsonRules

namespace SameOutcome

variable {ε α β γ δ : Type} {R : α → β → Prop} {S : γ → δ → Prop}
  {x : Except ε α} {y : Except ε β}

theorem refl {R : α → α → Prop} (h : ∀ a, R a a) (x : Except ε α) : SameOutcome Eq R x x := by
  cases x with
  | ok a => exact .ok (h a)
  | error e => exact .error rfl

theorem bind {f : α → Except ε γ} {g : β → Except ε δ} (h : SameOutcome Eq R x y)
    (hfg : ∀ a b, R a b → SameOutcome Eq S (f a) (g b)) :
    SameOutcome Eq S (x >>= f) (y >>= g) := by
  cases h with
  | ok hab => exact hfg _ _ hab
  | error he => exact .error he

theorem map {f : α → γ} {g : β → δ} (h : SameOutcome Eq R x y)
    (hfg : ∀ a b, R a b → S (f a) (g b)) : SameOutcome Eq S (f <$> x) (g <$> y) := by
  cases h with
  | ok hab => exact .ok (hfg _ _ hab)
  | error he => exact .error he

end SameOutcome

namespace Value

/-- A member of one object has an equal one in the other. -/
theorem Same.get? {fs gs : Fields} (h : Same (obj fs) (obj gs)) (key : String) :
    Option.Rel Same (Fields.get? key fs) (Fields.get? key gs) := by
  obtain ⟨hf, hfs⟩ := ordered_obj.1 h.left
  obtain ⟨hg, hgs⟩ := ordered_obj.1 h.right
  have hagree := (equal_obj hf hg).1 h.equal
  clear hf hg h
  induction hagree with
  | nil => exact .none
  | @cons m n fs gs hmn _ ih =>
    obtain ⟨k, x⟩ := m
    obtain ⟨k', y⟩ := n
    obtain ⟨rfl, hxy⟩ : k = k' ∧ x.equal y = true := hmn
    obtain ⟨hx, hfs⟩ := List.forall_mem_cons.1 hfs
    obtain ⟨hy, hgs⟩ := List.forall_mem_cons.1 hgs
    rw [Fields.get?, Fields.get?]
    split
    · exact .some ⟨hx, hy, hxy⟩
    · exact ih hfs hgs

theorem Same.equal_eq {v w : Value} (h : Same v w) {u : Value} (hu : u.Ordered) :
    v.equal u = w.equal u := by
  rw [Bool.eq_iff_iff, ← key_eq_iff h.left hu, ← key_eq_iff h.right hu, h.key_eq]

end Value

namespace Schema

open Value (Same)

variable {v w : Value}

theorem kindsOf_congr (path : SchemaPath) {names others : List Value}
    (h : List.Forall₂ Same names others) (read : List Kind) :
    kindsOf path read names = kindsOf path read others := by
  induction h generalizing read with
  | nil => rfl
  | cons hvw _ ih =>
    cases hvw.alike with
    | str name => rw [kindsOf, kindsOf]; simp only [ih]
    | _ => rfl

theorem typeRule_congr (path : SchemaPath) (h : Same v w) : typeRule path v = typeRule path w := by
  cases h.alike with
  | arr hs =>
    cases hs with
    | nil => rfl
    | cons hvw hs => rw [typeRule, typeRule, kindsOf_congr _ (.cons hvw hs)] <;> nofun
  | _ => rfl

theorem size?_congr (h : Same v w) : size? v = size? w := by
  cases h.alike with
  | num hs => exact Number.toSize?_congr hs
  | _ => rfl

theorem uniqueItemsCheck?_congr (h : Same v w) : uniqueItemsCheck? v = uniqueItemsCheck? w := by
  cases h.alike <;> rfl

theorem patternCheck_congr (limits : PatternLimits) (h : Same v w) :
    patternCheck limits v = patternCheck limits w := by
  cases h.alike <;> rfl

/-- Both fail with the same error, or both give alike rules or none. -/
abbrev GiveAlike : Except SchemaError (Option Rule) → Except SchemaError (Option Rule) → Prop :=
  SameOutcome Eq (Option.Rel Rule.Alike)

theorem GiveAlike.refl (x : Except SchemaError (Option Rule)) : GiveAlike x x :=
  SameOutcome.refl (fun rule? => by
    cases rule? with
    | none => exact .none
    | some rule => exact .some (.refl rule)) x

theorem enum_congr (path : SchemaPath) (h : Same v w) :
    GiveAlike (checkRule path (enumCheck v)) (checkRule path (enumCheck w)) := by
  cases h.alike with
  | @arr xs ys hs =>
    refine .ok (.some (Rule.alike_check rfl fun u hu => ?_))
    have hany : (xs.any fun x => x.equal u) = ys.any fun y => y.equal u :=
      any_eq_of_forall₂ (hs.imp fun _ _ hxy => hxy.equal_eq hu)
    rw [Check.violation?_enumeration (Value.ordered_arr.1 h.left) hu,
      Check.violation?_enumeration (Value.ordered_arr.1 h.right) hu, hany]
    exact Violation.Alike.rel_refl
  | _ => exact .error rfl

theorem const_congr (path : SchemaPath) (h : Same v w) :
    (Rule.check path (.const v)).Alike (.check path (.const w)) := by
  refine Rule.alike_check rfl fun u hu => ?_
  rw [Check.violation?, Check.violation?, h.equal_eq hu]
  exact Violation.Alike.rel_refl

theorem range_congr (path : SchemaPath) (bound : RangeBound) (h : Same v w) :
    GiveAlike (checkRule path (rangeCheck bound v)) (checkRule path (rangeCheck bound w)) := by
  cases h.alike with
  | num hs =>
    refine .ok (.some (Rule.alike_check rfl fun u _ => ?_))
    cases u with
    | num n =>
      rw [Check.violation?, Check.violation?, Number.compare_eq, Number.compare_eq, hs]
      split
      · exact .none
      · exact .some (.outOfRange bound hs)
    | _ => exact .none
  | _ => exact .error rfl

/-- Equal subschemas compile alike. -/
def CompilesAlike (compile : SubCompiler) : Prop :=
  ∀ path {schema other : Value}, Same schema other →
    SameOutcome Eq Rule.Alike (compile path schema) (compile path other)

section Sub

variable {compile : SubCompiler} (sub : CompilesAlike compile) (path : SchemaPath)
include sub

theorem compileEach_congr {schemas others : List Value} (h : List.Forall₂ Same schemas others)
    (start : Nat) : SameOutcome Eq (List.Forall₂ Rule.Alike)
      (compileEach compile path start schemas) (compileEach compile path start others) := by
  induction h generalizing start with
  | nil => exact .ok .nil
  | cons hvw _ ih =>
    exact (sub (path.index start) hvw).bind fun _ _ hrule =>
      (ih (start + 1)).bind fun _ _ hrules => .ok (.cons hrule hrules)

theorem itemsRule_congr (h : Same v w) :
    SameOutcome Eq Rule.Alike (itemsRule compile path v) (itemsRule compile path w) := by
  cases h.alike with
  | obj fs gs => exact (sub path h).bind fun _ _ hrule => .ok (Rule.alike_itemsUniform hrule)
  | arr hs =>
    exact (compileEach_congr sub path hs 0).bind fun _ _ hrules =>
      .ok (Rule.alike_itemsPositional hrules)
  | _ => exact .error rfl

theorem additionalItemsRule?_congr {items others : Option Value}
    (hitems : Option.Rel Same items others) (h : Same v w) :
    GiveAlike (additionalItemsRule? compile path items v)
      (additionalItemsRule? compile path others w) := by
  cases h.alike with
  | obj fs gs =>
    cases hitems with
    | none => exact .ok .none
    | some hxy =>
      cases hxy.alike with
      | arr hs =>
        rw [additionalItemsRule?, additionalItemsRule?, hs.length_eq]
        exact (sub path h).bind fun _ _ hrule => .ok (.some (Rule.alike_additionalItems _ hrule))
      | _ => exact .ok .none
  | _ => exact .error rfl

theorem containsRule_congr (h : Same v w) :
    SameOutcome Eq Rule.Alike (containsRule compile path v) (containsRule compile path w) := by
  cases h.alike with
  | obj fs gs => exact (sub path h).bind fun _ _ hrule => .ok (Rule.alike_contains hrule)
  | _ => exact .error rfl

theorem valueRule_congr (limits : PatternLimits) {fs gs : Fields} (hf : Same (.obj fs) (.obj gs))
    (h : Same v w) (k : Keyword) :
    GiveAlike (valueRule limits compile path fs v k) (valueRule limits compile path gs w k) := by
  cases k with
  | type => rw [valueRule, valueRule, typeRule_congr path h]; exact .refl _
  | enum => exact enum_congr _ h
  | const => exact .ok (.some (const_congr _ h))
  | multipleOf =>
    rw [valueRule, valueRule, multipleOfCheck, multipleOfCheck, size?_congr h]; exact .refl _
  | range bound => exact range_congr _ bound h
  | length bound =>
    rw [valueRule, valueRule, lengthCheck, lengthCheck, size?_congr h]; exact .refl _
  | pattern => rw [valueRule, valueRule, patternCheck_congr limits h]; exact .refl _
  | items => exact (itemsRule_congr sub _ h).map fun _ _ hrule => .some hrule
  | additionalItems => exact additionalItemsRule?_congr sub _ (hf.get? _) h
  | arraySize bound =>
    rw [valueRule, valueRule, arraySizeCheck, arraySizeCheck, size?_congr h]; exact .refl _
  | uniqueItems => rw [valueRule, valueRule, uniqueItemsCheck?_congr h]; exact .refl _
  | contains => exact (containsRule_congr sub _ h).map fun _ _ hrule => .some hrule
  | allOf => exact .ok .none
  | anyOf => exact .ok .none

theorem keywordRules_congr (limits : PatternLimits) {fs gs : Fields}
    (hf : Same (.obj fs) (.obj gs)) (ks : List Keyword) :
    SameOutcome Eq (List.Forall₂ Rule.Alike) (keywordRules limits compile path fs ks)
      (keywordRules limits compile path gs ks) := by
  have hrule : ∀ k, GiveAlike (keywordRule limits compile path fs k)
      (keywordRule limits compile path gs k) := by
    intro k
    have hmember := hf.get? k.name
    unfold keywordRule
    generalize Fields.get? k.name fs = x, Fields.get? k.name gs = y at hmember ⊢
    cases hmember with
    | none => exact .ok .none
    | some h => exact valueRule_congr sub path limits hf h k
  induction ks with
  | nil => exact .ok .nil
  | cons k rest ih =>
    refine (hrule k).bind fun _ _ hrule => ih.bind fun _ _ hrules => .ok ?_
    cases hrule with
    | none => exact hrules
    | some hrule => exact .cons hrule hrules

end Sub

theorem compileAt_congr (limits : Limits) (levels : Nat) :
    CompilesAlike (compileAt limits levels) := by
  induction levels with
  | zero => exact fun _ _ _ _ => .error rfl
  | succ levels ih =>
    intro path schema other h
    cases h.alike with
    | obj fs gs =>
      exact (keywordRules_congr ih path limits.pattern h _).bind fun _ _ hrules =>
        .ok (Rule.alike_all hrules)
    | _ => exact .error rfl

/-- Equal schemas fail with the same error, or compile to rules that evaluate alike. -/
theorem compile_congr (limits : Limits) (root : String) (schema other : Json)
    (h : schema.1.equal other.1 = true) :
    SameOutcome Eq Rule.Alike (compile limits root schema.1) (compile limits root other.1) :=
  compileAt_congr limits _ _ ⟨schema.2, other.2, h⟩

/-- The least item of `positives` written as `1.0`. -/
def positiveDoubles : Json :=
  ⟨.obj [("items", .obj [("minimum", .num (.float ⟨false, Double.one, by decide +kernel⟩))])],
    by decide +kernel⟩

theorem compile_positiveDoubles : positives.1.equal positiveDoubles.1 = true ∧
    SameOutcome Eq Rule.Alike (compile .default "root" positives.1)
      (compile .default "root" positiveDoubles.1) :=
  ⟨by decide +kernel, compile_congr .default "root" positives positiveDoubles (by decide +kernel)⟩

end Schema

end JsonRules
