import JsonRules.Value

/-!
# Structural equality

Arrays are compared in order, objects by key, numbers by their exact value, and kinds are
never mixed: `1` equals `1.0`, and neither equals the string of that text.
-/

namespace JsonRules.Value

mutual

def equal : Value → Value → Bool
  | null, null => true
  | bool a, bool b => a == b
  | num a, num b => a.compare b == .eq
  | str a, str b => a == b
  | arr xs, arr ys => equalItems xs ys
  | obj fs, obj gs => fs.length == gs.length && equalFields fs gs
  | _, _ => false

def equalItems : List Value → List Value → Bool
  | [], [] => true
  | x :: xs, y :: ys => equal x y && equalItems xs ys
  | _, _ => false

/-- Every member has an equal one of the same key in the other list. -/
def equalFields : List (String × Value) → Fields → Bool
  | [], _ => true
  | (k, x) :: rest, gs =>
    (match Fields.get? k gs with
      | some y => equal x y
      | none => false) && equalFields rest gs

end

end JsonRules.Value
