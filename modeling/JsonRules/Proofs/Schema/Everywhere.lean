import JsonRules.Proofs.Rule.Descend
import JsonRules.Proofs.Schema.Derivation
import JsonRules.Proofs.Value.Structure

/-!
# The rules of a compiled tree

Every rule of a compiled tree joins all rules of a schema, or comes from one keyword of one, or is
one of the alternatives of a list of types. `everywhere_of_compile` takes what holds of these three
to all rules of the tree.
-/

namespace JsonRules

theorem mem_anyKind {path : SchemaPath} {kinds : List Kind} {r : Rule}
    (h : r ∈ (Schema.anyKind path kinds).children) : ∃ p kind, r = .check p (.type kind) := by
  obtain ⟨i, hi, rfl⟩ := List.mem_mapIdx.1 h
  exact ⟨_, _, rfl⟩

namespace Schema

/-- Below the rule of a keyword lie alternatives of kinds, or the rules of subschemas. -/
theorem Gives.children {limits : PatternLimits} {Sub : SchemaPath → Value → Rule → Prop}
    {path : SchemaPath} {fields : Fields} {k : Keyword} {given : Value} {rule : Rule}
    (h : Gives limits Sub path fields k given (some rule)) {r : Rule} (hr : r ∈ rule.children) :
    (∃ p kind, r = .check p (.type kind)) ∨
      ∃ p schema, Sub p schema r ∧ (given.Ordered → schema.Ordered) := by
  cases h with
  | types => exact .inl (mem_anyKind hr)
  | items sub | additionalItems _ sub | contains sub =>
    obtain rfl := List.mem_singleton.1 hr
    exact .inr ⟨_, _, sub, id⟩
  | places length sub =>
    obtain ⟨i, hi, rfl⟩ := List.getElem_of_mem hr
    have hs := length ▸ hi
    exact .inr ⟨_, _, sub i hs hi, fun ho => Value.ordered_arr.1 ho _ (List.getElem_mem hs)⟩
  | _ => cases hr

/-- What holds of the rule of any keyword, of all rules of a schema together and of a kind's check
holds everywhere in a compiled tree. -/
theorem everywhere_of_compile {limits : Limits} {Q : Rule → Prop}
    (all : ∀ levels path fields part, (Value.obj fields).Ordered →
      GivesEach limits.pattern (fun p s r => compileAt limits levels p s = .ok r) path fields part →
      (Keyword.inOrder.filterMap part).length ≠ 1 →
      Q (.allOf path (Keyword.inOrder.filterMap part)))
    (keyword : ∀ levels path fields k given rule, given.Ordered →
      Gives limits.pattern (fun p s r => compileAt limits levels p s = .ok r) path fields k given
        (some rule) → Q rule)
    (kind : ∀ path kind, Q (.check path (.type kind))) :
    ∀ {levels path schema rule}, compileAt limits levels path schema = .ok rule →
      schema.Ordered → rule.Everywhere Q := by
  intro levels
  induction levels with
  | zero => intro path schema rule h; cases h
  | succ levels ih =>
    intro path schema rule h ho
    obtain ⟨fields, part, rfl, rfl, hparts⟩ := compileAt_ok (fun _ _ _ h => h) h
    refine Rule.Everywhere.all (all levels path fields part ho hparts) fun r hr => ?_
    obtain ⟨k, hk, hpart⟩ := List.mem_filterMap.1 hr
    obtain ⟨given, hget, hgives⟩ := hparts.exists_gives hk hpart
    have hgiven := (Value.ordered_obj.1 ho).2 _ (Fields.mem_of_get? hget)
    refine Rule.everywhere_iff.2 ⟨keyword _ _ _ _ _ _ hgiven hgives, fun c hc => ?_⟩
    rcases hgives.children hc with ⟨p, k, rfl⟩ | ⟨p, s, hs, hso⟩
    · exact Rule.everywhere_iff.2 ⟨kind p k, nofun⟩
    · exact ih hs (hso hgiven)

end Schema

end JsonRules
