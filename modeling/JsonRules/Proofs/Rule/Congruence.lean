import JsonRules.Proofs.Rule.Search
import JsonRules.Proofs.Schema.Everywhere
import JsonRules.Proofs.Value.Key

/-!
# Equal values are evaluated alike

No rule of a compiled schema sees how a value is written: equal values, with `1` in one and `1.0`
in the other, have the same first error. Each check goes by what equality keeps, namely kinds, exact
values of numbers, keys and lengths; the other rules carry this over to items at their places.
-/

namespace JsonRules

namespace Number

/-- Divisibility by a size is decided by the exact value. -/
theorem isMultipleOf_congr {a b : Number} (h : a.scaled = b.scaled) (divisor : Nat) :
    a.isMultipleOf divisor = b.isMultipleOf divisor := by
  have htoInt := toInt?_congr h
  have whole : ∀ {n : Number} {i : Int}, n.toInt? = some i →
      n.isMultipleOf divisor = (i % divisor == 0) := by
    intro n i hn
    cases n with
    | int j _ => cases hn; rfl
    | float d => rw [toInt?] at hn; simp only [isMultipleOf, hn]
  cases ha : a.toInt? with
  | some i => rw [whole ha, whole (htoInt ▸ ha)]
  | none =>
    -- large or with a fraction: both are the same double
    obtain ⟨x, rfl, -, hx⟩ := exists_float_of_toInt? ha
    obtain ⟨y, rfl, -, -⟩ := exists_float_of_toInt? (htoInt ▸ ha)
    rw [Double.eq_of_value_eq h hx]

theorem isIntegral_congr {a b : Number} (h : a.scaled = b.scaled) :
    a.isIntegral = b.isIntegral := by
  rw [Bool.eq_iff_iff, isIntegral_iff, isIntegral_iff, h]

end Number

namespace Value

structure Same (v w : Value) : Prop where
  left : v.Ordered
  right : w.Ordered
  equal : v.equal w = true

/-- What two equal values have in common one level down. -/
inductive Alike : Value → Value → Prop
  | null : Alike null null
  | bool (b : Bool) : Alike (bool b) (bool b)
  | num {m n : Number} (h : m.scaled = n.scaled) : Alike (num m) (num n)
  | str (s : String) : Alike (str s) (str s)
  | arr {xs ys : List Value} (h : List.Forall₂ Same xs ys) : Alike (arr xs) (arr ys)
  | obj (fs gs : Fields) : Alike (obj fs) (obj gs)

theorem forall₂_same {xs ys : List Value} (hx : ∀ x ∈ xs, x.Ordered) (hy : ∀ y ∈ ys, y.Ordered)
    (h : List.Forall₂ (fun x y => x.equal y = true) xs ys) : List.Forall₂ Same xs ys := by
  induction h with
  | nil => exact .nil
  | cons h _ ih =>
    obtain ⟨hx, hxs⟩ := List.forall_mem_cons.1 hx
    obtain ⟨hy, hys⟩ := List.forall_mem_cons.1 hy
    exact .cons ⟨hx, hy, h⟩ (ih hxs hys)

namespace Same

variable {v w : Value}

theorem alike (h : Same v w) : Alike v w := by
  obtain ⟨hv, hw, he⟩ := h
  have hk := kind_eq_of_equal he
  cases v with
  | null =>
    cases w with
    | null => exact .null
    | _ => cases hk
  | bool b =>
    cases w with
    | bool c =>
      obtain rfl : b = c := by simpa [Value.equal] using he
      exact .bool b
    | _ => cases hk
  | num m =>
    cases w with
    | num n => exact .num (equal_num.1 he)
    | _ => cases hk
  | str s =>
    cases w with
    | str t =>
      obtain rfl : s = t := by simpa [Value.equal] using he
      exact .str s
    | _ => cases hk
  | arr xs =>
    cases w with
    | arr ys => exact .arr (forall₂_same (ordered_arr.1 hv) (ordered_arr.1 hw) (equal_arr.1 he))
    | _ => cases hk
  | obj fs =>
    cases w with
    | obj gs => exact .obj fs gs
    | _ => cases hk

theorem key_eq (h : Same v w) : v.key = w.key := (key_eq_iff h.left h.right).2 h.equal

theorem accepts_eq (h : Same v w) (kind : Kind) : kind.accepts v = kind.accepts w := by
  cases h.alike with
  | num hs => cases kind <;> first | rfl | exact Number.isIntegral_congr hs
  | arr hs => cases kind <;> rfl
  | obj fs gs => cases kind <;> rfl
  | _ => rfl

theorem forall₂_items (h : Same v w) : List.Forall₂ Same v.items w.items := by
  cases h.alike with
  | arr hs => exact hs
  | _ => exact .nil

theorem map_key_eq {xs ys : List Value} (h : List.Forall₂ Same xs ys) :
    xs.map Value.key = ys.map Value.key := by
  induction h with
  | nil => rfl
  | cons h _ ih => rw [List.map_cons, List.map_cons, h.key_eq, ih]

end Same

end Value

namespace Check

/-- A literal that values are compared with is ordered. -/
def LiteralOrdered : Check → Prop
  | const literal => literal.Ordered
  | _ => True

theorem violation?_congr {c : Check} (hc : c.LiteralOrdered) {v w : Value} (h : v.Same w) :
    c.violation? v = c.violation? w := by
  cases c with
  | type kind => rw [violation?, violation?, h.accepts_eq]
  | enum allowed nullAllowed =>
    cases h.alike with
    | null => rfl
    | _ => simp only [violation?, h.key_eq]
  | const literal =>
    have heq : literal.equal v = literal.equal w := by
      rw [Bool.eq_iff_iff, ← Value.key_eq_iff hc h.left, ← Value.key_eq_iff hc h.right, h.key_eq]
    rw [violation?, violation?, heq]
  | multipleOf divisor =>
    cases h.alike with
    | num hs => rw [violation?, violation?, Number.isMultipleOf_congr hs]
    | _ => rfl
  | range bound border =>
    cases h.alike with
    | num hs => rw [violation?, violation?, Number.compare_eq, Number.compare_eq, hs]
    | _ => rfl
  | length bound limit | pattern p =>
    cases h.alike <;> rfl
  | arraySize bound limit =>
    cases h.alike with
    | arr hs => rw [violation?, violation?, hs.length_eq]
    | _ => rfl
  | uniqueItems =>
    cases h.alike with
    | arr hs => rw [violation?, violation?, Value.Same.map_key_eq hs]
    | _ => rfl

end Check

namespace Rule

/-- A check that compares values with a literal compares them with an ordered one. -/
def LiteralOrdered : Rule → Prop
  | check _ c => c.LiteralOrdered
  | _ => True

section Items

variable {error? : Value → Location → Option ValidationError} {xs ys : List Value}

theorem firstItemError?_congr (h : ∀ v w, v.Same w → ∀ l, error? v l = error? w l)
    (hs : List.Forall₂ Value.Same xs ys) (l : Location) (start : Nat) :
    firstItemError? error? l start xs = firstItemError? error? l start ys := by
  induction hs generalizing start with
  | nil => rfl
  | cons hxy _ ih => rw [firstItemError?, firstItemError?, h _ _ hxy, ih]

theorem someItemPasses_congr (h : ∀ v w, v.Same w → ∀ l, error? v l = error? w l)
    (hs : List.Forall₂ Value.Same xs ys) (l : Location) (start : Nat) :
    someItemPasses error? l start xs = someItemPasses error? l start ys := by
  induction hs generalizing start with
  | nil => rfl
  | cons hxy _ ih => rw [someItemPasses, someItemPasses, h _ _ hxy, ih]

theorem firstPlaceError?_congr {rules : List Rule}
    (h : ∀ r ∈ rules, ∀ v w, v.Same w → ∀ l, r.error? v l = r.error? w l)
    (hs : List.Forall₂ Value.Same xs ys) (l : Location) (start : Nat) :
    firstPlaceError? rules start xs l = firstPlaceError? rules start ys l := by
  induction hs generalizing rules start with
  | nil => rfl
  | cons hxy _ ih =>
    cases rules with
    | nil => rfl
    | cons r rest =>
      rw [firstPlaceError?, firstPlaceError?, h r List.mem_cons_self _ _ hxy,
        ih fun r hr => h r (List.mem_cons_of_mem _ hr)]

end Items

/-- Rules with ordered literals do not tell equal values apart. -/
theorem error?_congr (rule : Rule) : rule.Everywhere LiteralOrdered →
    ∀ v w, v.Same w → ∀ l, rule.error? v l = rule.error? w l := by
  induction rule using byChildren with
  | step rule ih =>
    intro hlit v w h l
    obtain ⟨hself, hbelow⟩ := everywhere_iff.1 hlit
    cases rule with
    | check path c => rw [error?, error?, Check.violation?_congr hself h]
    | allOf path rules =>
      rw [error?, error?, firstError?_eq, firstError?_eq]
      exact findSome?_congr fun r hr => ih r hr (hbelow r hr) v w h l
    | anyOf path rules =>
      rw [error?, error?, somePasses_eq, somePasses_eq]
      have hany : (rules.any fun r => (r.error? v l).isNone) =
          rules.any fun r => (r.error? w l).isNone :=
        any_congr_mem fun r hr => congrArg Option.isNone (ih r hr (hbelow r hr) v w h l)
      rw [hany]
    | itemsUniform path rule =>
      have hrule := ih rule List.mem_cons_self (hbelow rule List.mem_cons_self)
      rw [error?, error?]
      exact firstItemError?_congr hrule h.forall₂_items l 0
    | itemsPositional path rules =>
      rw [error?, error?]
      exact firstPlaceError?_congr (fun r hr => ih r hr (hbelow r hr)) h.forall₂_items l 0
    | additionalItems path offset rule =>
      have hrule := ih rule List.mem_cons_self (hbelow rule List.mem_cons_self)
      rw [error?, error?]
      exact firstItemError?_congr hrule (List.forall₂_drop offset h.forall₂_items) l offset
    | contains path rule =>
      have hrule := ih rule List.mem_cons_self (hbelow rule List.mem_cons_self)
      cases h.alike with
      | arr hs => rw [error?, error?, someItemPasses_congr hrule hs]
      | _ => rfl

end Rule

namespace Schema

/-- The literals of a rule are values of the schema that it was compiled from. -/
theorem literalOrdered_of_compile {limits : Limits} {levels : Nat} {path : SchemaPath}
    {schema : Value} {rule : Rule} (h : compileAt limits levels path schema = .ok rule)
    (ho : schema.Ordered) : rule.Everywhere Rule.LiteralOrdered := by
  refine everywhere_of_compile (fun _ _ _ _ _ _ _ => trivial)
    (fun _ _ _ _ _ _ hgiven hgives => ?_) (fun _ _ => trivial) h ho
  cases hgives with
  | const => exact hgiven
  | _ => trivial

/-- Every rule in a compiled tree gives equal values the same result at the same place. -/
theorem evaluate_congr (limits : Limits) (root : String) (schema : Json) (rule : Rule)
    (h : compile limits root schema.1 = .ok rule) (indices : List Nat) (node : Rule)
    (hnode : rule.descendant? indices = some node) (v w : Json) (he : v.1.equal w.1 = true)
    (l : Location) : node.evaluate v.1 l = node.evaluate w.1 l := by
  have hlit := (literalOrdered_of_compile h schema.2).descendant hnode
  rw [Rule.evaluate, Rule.evaluate, node.error?_congr hlit v.1 w.1 ⟨v.2, w.2, he⟩]

/-- A list of numbers from one on. -/
def positives : Json :=
  ⟨.obj [("items", .obj [("minimum", .num (.int 1 (by decide)))])], by decide⟩

def zeros : Json := ⟨.arr [.num (.int 0 (by decide))], by decide⟩

def negativeZeros : Json := ⟨.arr [.num (.float (Double.zero true))], by decide⟩

theorem evaluate_negativeZeros :
    negativeZeros.1.equal zeros.1 = true ∧ ∃ rule, compile .default "root" positives.1 = .ok rule ∧
      rule.evaluate negativeZeros.1 .root = rule.evaluate zeros.1 .root :=
  ⟨by decide +kernel, _, rfl, evaluate_congr .default "root" positives _ rfl [] _ rfl negativeZeros
    zeros (by decide +kernel) .root⟩

end Schema

end JsonRules
