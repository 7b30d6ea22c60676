import JsonRules.Pattern.CharSet
import JsonRules.Pattern.Source

/-!
# The members of a class

How the grammar of ECMA 262 reads the atoms of a class, with the additions of its Annex B. From left
to right, an atom, a `-` and the next atom are one member: a range if both atoms are single code
points, else the two atoms and the `-`. Any other atom is a member of its own. What follows a member
starts afresh.
-/

namespace JsonRules.Pattern

open Unicode (CodeSet)

/-- The set of a Unicode property as it is written, if the matchers know it. -/
def propertyCodes? (text : List Char) : Option CodeSet := (escapedSet? text.tail).map Prod.fst

namespace ClassAtom

def names (x : Char) : ClassAtom → Bool
  | code c => x.toNat = c
  | dash => x == '-'
  | set codes => codes.has x
  | property text => (propertyCodes? text).any fun codes => codes.has x

/-- The atom is a property that the matchers do not know. -/
def isUnknown : ClassAtom → Bool
  | property text => (propertyCodes? text).isNone
  | _ => false

end ClassAtom

inductive ClassPart where
  | one (a : ClassAtom)
  | range (lo hi : Nat)
  /-- Two atoms and the `-` between them. -/
  | union (a b : ClassAtom)
  deriving DecidableEq, Repr

namespace ClassPart

/-- The member that two atoms are with a `-` between them. -/
def ofPair (a b : ClassAtom) : ClassPart :=
  match a.endpoint?, b.endpoint? with
  | some lo, some hi => range lo hi
  | _, _ => union a b

def read : List ClassAtom → List ClassPart
  | [] => []
  | a :: .dash :: b :: rest => ofPair a b :: read rest
  | a :: rest => one a :: read rest

def isReversed : ClassPart → Bool
  | range lo hi => hi < lo
  | _ => false

def names (x : Char) : ClassPart → Bool
  | one a => a.names x
  | range lo hi => lo ≤ x.toNat ∧ x.toNat ≤ hi
  | union a b => a.names x || x == '-' || b.names x

def isUnknown : ClassPart → Bool
  | one a => a.isUnknown
  | range _ _ => false
  | union a b => a.isUnknown || b.isUnknown

end ClassPart

def startsRange : List ClassAtom → Bool
  | a :: .dash :: b :: _ => a.endpoint?.isSome && b.endpoint?.isSome
  | _ => false

/-- The `-` or the second atom of a union begins a range together with what follows the union, if
the union is not taken as a whole. -/
def runsOn : List ClassAtom → Bool
  | [] => false
  | a :: .dash :: b :: rest =>
    (!startsRange (a :: .dash :: b :: rest) &&
      (startsRange (.dash :: b :: rest) || startsRange (b :: rest))) || runsOn rest
  | _ :: rest => runsOn rest

/-- The letters whose escapes in a class stand for something else than themselves. -/
def escapeLetters : List Char :=
  ['d', 'D', 'w', 'W', 's', 'S', 'b', 'p', 'P', 'n', 'r', 't', 'f', 'v', 'c', 'x', 'u']

/-- The text before the given one names a single code point in a class. -/
inductive NamesCode : List Char → Nat → List Char → Prop
  | code {c : ClassCode} {after : List Char} (ends : c.Ends after) : NamesCode c.text c.code after
  /-- A letter whose escape has no meaning stands for itself. -/
  | letter {c : Char} (isAlpha : c.isAlpha = true) (plain : c ∉ escapeLetters)
      (after : List Char) : NamesCode ['\\', c] c.toNat after
  /-- A backslash before a `c` that no letter follows stands for itself. -/
  | backslash {after : List Char} (noLetter : ∀ c, after.head? = some c → c.isAlpha = false) :
      NamesCode ['\\'] 0x5C ('c' :: after)

end JsonRules.Pattern
