import JsonRules.Pattern.Linear.Regex

/-!
# Matching by sets of positions

To match an expression against a text, every set of characters and every assertion in it is
replaced by the set of the positions where it holds; this is the expression's plan for the
text. A set of positions is a number, one bit for each position. `Plan.advance` takes the
positions where a match may start to those where it may end, `Plan.retreat` goes back. Both
treat all positions at once, so that a text is searched in time linear in it for each part of
the expression, however repetitions are nested.

`Plan.firstEnd` says where the match ends that is preferred among those from one position:
left alternatives before right ones, and more repetitions or fewer as each one prefers. It
never turns into a branch that does not lead to the goal, and so never turns back.
-/

namespace JsonRules.Pattern.Linear

def charPositions (p : Char → Bool) (text : List Char) : Nat :=
  text.foldr (fun c m => 2 * m + (p c).toNat) 0

/-- An expression with its sets and assertions replaced by the positions where they hold. -/
inductive Plan where
  | empty
  /-- Takes the character after a position that is listed. -/
  | step (places : Nat)
  /-- Stays at a position that is listed. -/
  | stay (places : Nat)
  | seq (first second : Plan)
  | alt (left right : Plan)
  | rep (least : Nat) (most : Option Nat) (greedy : Bool) (body : Plan)
  deriving Repr

/-- The assertions of a text as sets of positions. -/
structure Places where
  start : Nat
  stop : Nat
  wordBoundary : Nat

namespace Places

/-- The word characters of the text, as the positions before them. -/
def ofText (text : List Char) : Places :=
  let words := charPositions isWordChar text
  ⟨1, 1 <<< text.length, words ^^^ (words <<< 1)⟩

def get (p : Places) : Assertion → Nat
  | .start => p.start
  | .stop => p.stop
  | .wordBoundary => p.wordBoundary

end Places

namespace Regex

def plan (text : List Char) (places : Places) : Regex → Plan
  | empty => .empty
  | set s => .step (charPositions s.has text)
  | assert a => .stay (places.get a)
  | seq r s => .seq (r.plan text places) (s.plan text places)
  | alt r s => .alt (r.plan text places) (s.plan text places)
  | rep least most greedy r => .rep least most greedy (r.plan text places)

end Regex

/-- Applies a function `n` times, or until it changes nothing. -/
def iterate (f : Nat → Nat) : Nat → Nat → Nat
  | 0, s => s
  | n + 1, s =>
    let next := f s
    if next = s then s else iterate f n next

/-- The positions that up to `n` applications reach, where `reached` have been and those of
them in `new` may lead further. -/
def spread (f : Nat → Nat) : Nat → Nat → Nat → Nat
  | 0, reached, _ => reached
  | n + 1, reached, new =>
    let found := f new
    let fresh := found ^^^ (found &&& reached)
    if fresh = 0 then reached else spread f n (reached ||| fresh) fresh

/-- The positions that `least` to `most` applications reach, in a text of `size` positions. -/
def repeated (f : Nat → Nat) (size least : Nat) (most : Option Nat) (s : Nat) : Nat :=
  let s := iterate f least s
  spread f (match most with
    | some most => most - least
    | none => size) s s

namespace Plan

/-- The positions where matches from the given ones end. -/
def advance (size : Nat) : Plan → Nat → Nat
  | empty, s => s
  | step places, s => (s &&& places) <<< 1
  | stay places, s => s &&& places
  | seq p q, s => q.advance size (p.advance size s)
  | alt p q, s => p.advance size s ||| q.advance size s
  | rep least most _ p, s => repeated (p.advance size) size least most s

/-- The positions where matches to the given ones start. -/
def retreat (size : Nat) : Plan → Nat → Nat
  | empty, s => s
  | step places, s => (s >>> 1) &&& places
  | stay places, s => s &&& places
  | seq p q, s => p.retreat size (q.retreat size s)
  | alt p q, s => p.retreat size s ||| q.retreat size s
  | rep least most _ p, s => repeated (p.retreat size) size least most s

/-- The end of `n` bodies in a row from a position, each one as it is preferred. -/
def firstEndTimes (first : Nat → Nat → Nat) (back : Nat → Nat) : Nat → Nat → Nat → Nat
  | 0, i, _ => i
  | n + 1, i, goal => firstEndTimes first back n (first i (iterate back n goal)) goal

/-- The end of up to `n` more bodies in a row, where `ahead` gives the positions from which so
many bodies reach the goal. A body that takes nothing is the last one. -/
def firstEndMore (first : Nat → Nat → Nat) (back : Nat → Nat) (ahead : Nat → Nat)
    (greedy : Bool) : Nat → Nat → Nat → Nat
  | 0, i, _ => i
  | n + 1, i, goal =>
    let here := 1 <<< i
    let further := ahead n
    let next := (further ^^^ (further &&& here)) ||| (goal &&& here)
    if (!greedy && goal.testBit i) || !(back next).testBit i then i
    else
      let j := first i next
      if j = i then i else firstEndMore first back ahead greedy n j goal

/-- The end of the preferred match from a position to one of the goal; there must be one. -/
def firstEnd (size : Nat) : Plan → Nat → Nat → Nat
  | empty, i, _ => i
  | step _, i, _ => i + 1
  | stay _, i, _ => i
  | seq p q, i, goal => q.firstEnd size (p.firstEnd size i (q.retreat size goal)) goal
  | alt p q, i, goal =>
    if (p.retreat size goal).testBit i then p.firstEnd size i goal else q.firstEnd size i goal
  | rep least most greedy p, i, goal =>
    let back := p.retreat size
    let more := match most with
      | some most => most - least
      | none => size
    let ahead := match most with
      | some _ => fun n => spread back n goal goal
      | none =>
        let all := spread back size goal goal
        fun _ => all
    let i := firstEndTimes (p.firstEnd size) back least i (ahead more)
    firstEndMore (p.firstEnd size) back ahead greedy more i goal

end Plan

def allPositions (text : List Char) : Nat := (1 <<< (text.length + 1)) - 1

def Regex.isMatch (r : Regex) (text : List Char) : Bool :=
  (r.plan text (Places.ofText text)).advance (text.length + 1) (allPositions text) != 0

end JsonRules.Pattern.Linear
