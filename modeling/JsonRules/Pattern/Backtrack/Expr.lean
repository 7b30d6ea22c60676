import JsonRules.Pattern.Linear.Regex

/-!
# Expressions with lookaround and backreferences

The expressions of the backtracking matcher, and what can be said of one without a text: the
least length of its matches, whether all of them have that length, and whether it is hard,
that is, whether it needs the backtracking matcher. A group that is referred to is hard, since
its matches have to be tried one after the other.
-/

namespace JsonRules.Pattern.Backtrack

open Linear (Regex)
open Unicode (CodeSet)

inductive Expr where
  | empty
  | set (chars : CodeSet)
  | start
  | stop
  | concat (parts : List Expr)
  | alt (branches : List Expr)
  | group (index : Nat) (body : Expr)
  | look (behind negative : Bool) (body : Expr)
  | rep (least : Nat) (most : Option Nat) (greedy : Bool) (body : Expr)
  | backref (index : Nat)
  /-- Takes the match that is preferred and no other. -/
  | atomic (body : Expr)
  deriving Inhabited, Repr

namespace Expr

mutual

def refs : Expr → List Nat
  | concat es => refsAll es
  | alt es => refsAll es
  | group _ e => e.refs
  | look _ _ e => e.refs
  | rep _ _ _ e => e.refs
  | atomic e => e.refs
  | backref i => [i]
  | _ => []

def refsAll : List Expr → List Nat
  | [] => []
  | e :: es => e.refs ++ refsAll es

end

mutual

def groups : Expr → Nat
  | concat es => groupsAll es
  | alt es => groupsAll es
  | group i e => max i e.groups
  | look _ _ e => e.groups
  | rep _ _ _ e => e.groups
  | atomic e => e.groups
  | _ => 0

def groupsAll : List Expr → Nat
  | [] => 0
  | e :: es => max e.groups (groupsAll es)

end

mutual

/-- The expression needs the backtracking matcher, where the groups in `refs` are referred
to. -/
def isHard (refs : List Nat) : Expr → Bool
  | concat es => isHardAny refs es
  | alt es => isHardAny refs es
  | group i e => refs.contains i || e.isHard refs
  | look _ _ _ => true
  | rep _ _ _ e => e.isHard refs
  | atomic _ => true
  | backref _ => true
  | _ => false

def isHardAny (refs : List Nat) : List Expr → Bool
  | [] => false
  | e :: es => e.isHard refs || isHardAny refs es

end

mutual

def minLength : Expr → Nat
  | set _ => 1
  | concat es => minLengthSum es
  | alt es => minLengthLeast es
  | group _ e => e.minLength
  | rep least _ _ e => e.minLength * least
  | atomic e => e.minLength
  | _ => 0

def minLengthSum : List Expr → Nat
  | [] => 0
  | e :: es => e.minLength + minLengthSum es

def minLengthLeast : List Expr → Nat
  | [] => 0
  | [e] => e.minLength
  | e :: es => min e.minLength (minLengthLeast es)

end

mutual

def isFixed : Expr → Bool
  | concat es => isFixedAll es
  | alt es => isFixedAll es && sameLength es
  | group _ e => e.isFixed
  | rep least most _ e => e.isFixed && most == some least
  | backref _ => false
  | atomic e => e.isFixed
  | _ => true

def isFixedAll : List Expr → Bool
  | [] => true
  | e :: es => e.isFixed && isFixedAll es

def sameLength : List Expr → Bool
  | e :: f :: es => e.minLength == f.minLength && sameLength (f :: es)
  | _ => true

end

def fixedLength? (e : Expr) : Option Nat := if e.isFixed then some e.minLength else none

mutual

/-- The expression in terms of the linear matcher. Counts must be in order there and fit into
32 bits. -/
def toRegex? : Expr → Option Regex
  | empty => some .empty
  | set s => some (.set s)
  | start => some (.assert .start)
  | stop => some (.assert .stop)
  | concat es => sequence? es
  | alt es => choice? es
  | group _ e => e.toRegex?
  | rep least most greedy e =>
    if 0x100000000 ≤ least ∨ (most.any fun m => m < least ∨ 0x100000000 ≤ m) then none
    else e.toRegex?.map (.rep least most greedy)
  | look _ _ _ => none
  | backref _ => none
  | atomic _ => none

def sequence? : List Expr → Option Regex
  | [] => some .empty
  | [e] => e.toRegex?
  | e :: es => do return .seq (← e.toRegex?) (← sequence? es)

def choice? : List Expr → Option Regex
  | [] => some .empty
  | [e] => e.toRegex?
  | e :: es => do return .alt (← e.toRegex?) (← choice? es)

end

end Expr

end JsonRules.Pattern.Backtrack
