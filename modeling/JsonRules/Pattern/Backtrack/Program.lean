import JsonRules.Pattern.Backtrack.Expr
import JsonRules.Pattern.Linear.Size

/-!
# Backtracking programs

An expression is compiled to a program that tries its alternatives in order. Parts that are
not hard become pieces, which the linear matcher matches on its own: a piece that can match in
more than one length is taken as a whole where nothing after it could ask for another length.
-/

namespace JsonRules.Pattern.Backtrack

open Linear (Regex)

/-- A part that the linear matcher matches, and its length if all matches have the same. -/
structure Piece where
  regex : Regex
  length? : Option Nat
  deriving Repr

inductive Program (α : Type) where
  | piece (p : α)
  /-- Takes any character. -/
  | any
  | start
  | stop
  | seq (programs : List (Program α))
  | alt (programs : List (Program α))
  | capture (index : Nat) (body : Program α)
  | optional (greedy : Bool) (body : Program α)
  /-- Any number of times from `least` on a body that takes a character at least. -/
  | star (least : Nat) (greedy : Bool) (body : Program α)
  /-- Any number of times from `least` on a body that may take nothing. -/
  | guarded (least : Nat) (greedy : Bool) (body : Program α)
  | counted (least most : Nat) (greedy : Bool) (body : Program α)
  /-- Looks from a position that many characters back. -/
  | look (back : Nat) (negative : Bool) (body : Program α)
  | backref (index : Nat)
  | atomic (body : Program α)

namespace Program

mutual

def map {α β : Type} (f : α → β) : Program α → Program β
  | piece p => piece (f p)
  | any => any
  | start => start
  | stop => stop
  | seq ps => seq (mapAll f ps)
  | alt ps => alt (mapAll f ps)
  | capture i p => capture i (p.map f)
  | optional g p => optional g (p.map f)
  | star n g p => star n g (p.map f)
  | guarded n g p => guarded n g (p.map f)
  | counted n m g p => counted n m g (p.map f)
  | look b n p => look b n (p.map f)
  | backref i => backref i
  | atomic p => atomic (p.map f)

def mapAll {α β : Type} (f : α → β) : List (Program α) → List (Program β)
  | [] => []
  | p :: ps => p.map f :: mapAll f ps

end

mutual

/-- The most steps that a run takes in a text of `length` characters without turning back. -/
def steps {α : Type} (length : Nat) : Program α → Nat
  | seq ps => 1 + stepsAll length ps
  | alt ps => 1 + stepsAll length ps
  | capture _ p => 2 + p.steps length
  | optional _ p => 1 + p.steps length
  | star least _ p => (length + least + 2) * (2 + p.steps length)
  | guarded least _ p => (length + least + 3) * (2 + p.steps length)
  | counted _ most _ p => (most + 2) * (2 + p.steps length)
  | look _ _ p => 3 + p.steps length
  | atomic p => 2 + p.steps length
  | _ => 1

def stepsAll {α : Type} (length : Nat) : List (Program α) → Nat
  | [] => 0
  | p :: ps => 1 + p.steps length + stepsAll length ps

end

end Program

/-- The largest program of a piece, in bytes. -/
def pieceLimit : Nat := 10 * 0x100000

def pieceOf? (e : Expr) : Option (Program Piece) := do
  let regex ← e.toRegex?
  if regex.fits pieceLimit then some (.piece ⟨regex, e.fixedLength?⟩) else none

/-- The piece of a sequence of expressions, none of which is hard; no piece for none. -/
def pieceOfAll? (es : List Expr) : Option (List (Program Piece)) :=
  if es.isEmpty then some [] else (pieceOf? (.concat es)).map ([·])

namespace Expr

/-- A part of a sequence that can be matched as a piece wherever it stands. -/
def isFixedPiece (refs : List Nat) (e : Expr) : Bool := e.isFixed && !e.isHard refs

/-- How many parts at the start of a sequence make a piece, and how many at its end. Where
nothing follows the sequence, parts of any length make a piece at its end. -/
def pieceEnds (refs : List Nat) (hard : Bool) (es : List Expr) : Nat × Nat :=
  let front := (es.takeWhile (isFixedPiece refs)).length
  let back := if hard then isFixedPiece refs else fun e => !e.isHard refs
  (front, ((es.drop front).reverse.takeWhile back).length)

def repeatProgram (least : Nat) (most : Option Nat) (greedy : Bool) (bodyLength : Nat)
    (body : Program Piece) : Program Piece :=
  match most with
  | some most =>
    if least = 0 ∧ most = 1 then .optional greedy body else .counted least most greedy body
  | none =>
    if bodyLength = 0 then .guarded least greedy body else .star least greedy body

/-- A look at what matches a body; behind the position, all matches need one length. -/
def lookProgram? (behind negative : Bool) (inner : Expr) (body : Program Piece) :
    Option (Program Piece) :=
  if behind then (inner.fixedLength?).map fun n => .look n negative body
  else some (.look 0 negative body)

/-- A look behind the position at any of several alternatives, each of its own length. -/
def lookAnyProgram? (negative : Bool) (inner : List Expr) (bodies : List (Program Piece)) :
    Option (Program Piece) := do
  let looks ← (inner.zip bodies).mapM fun (e, p) => lookProgram? true negative e p
  some (if negative then .seq looks else .alt looks)

mutual

/-- The program of an expression, where the groups in `refs` are referred to. It is `hard`
where something that follows can ask for another match. -/
def compile? (refs : List Nat) (hard : Bool) (e : Expr) : Option (Program Piece) :=
  if !hard && !e.isHard refs then pieceOf? e
  else
    match e with
    | empty => some (.seq [])
    | start => some .start
    | stop => some .stop
    | set s => pieceOf? (set s)
    | concat es => do
      let (front, back) := pieceEnds refs hard es
      let middle ← compileSome? refs front (es.length - front - back) es
      let first ← pieceOfAll? (es.take front)
      let last ← pieceOfAll? (es.drop (es.length - back))
      some (.seq (first ++ middle ++ last))
    | alt es => (compileAll? refs hard es).map .alt
    | group i body => (body.compile? refs hard).map (.capture i)
    | look behind negative (alt es) =>
      if behind && !(alt es).isFixed then do
        let bodies ← compileAll? refs false es
        lookAnyProgram? negative es bodies
      else do
        let body ←
          if (alt es).isHard refs then (compileAll? refs false es).map .alt
          else pieceOf? (alt es)
        lookProgram? behind negative (alt es) body
    | look behind negative inner => do
      let body ← inner.compile? refs false
      lookProgram? behind negative inner body
    | rep least most greedy body => do
      let hard := if least = 0 ∧ most = some 1 then hard else hard || body.isHard refs
      let program ← body.compile? refs hard
      some (repeatProgram least most greedy body.minLength program)
    | backref i => some (.backref i)
    | atomic body => (body.compile? refs false).map .atomic

def compileAll? (refs : List Nat) (hard : Bool) : List Expr → Option (List (Program Piece))
  | [] => some []
  | e :: es => do
    let p ← e.compile? refs hard
    let ps ← compileAll? refs hard es
    some (p :: ps)

/-- The programs of `take` parts of a sequence after the first `skip`. -/
def compileSome? (refs : List Nat) : Nat → Nat → List Expr → Option (List (Program Piece))
  | _, _, [] => some []
  | skip + 1, take, _ :: es => compileSome? refs skip take es
  | 0, 0, _ :: _ => some []
  | 0, take + 1, e :: es => do
    let p ← e.compile? refs true
    let ps ← compileSome? refs 0 take es
    some (p :: ps)

end

def search? (e : Expr) : Option (Program Piece) := do
  let body ← e.compile? e.refs true
  some (.seq [.star 0 false .any, .capture 0 body])

end Expr

end JsonRules.Pattern.Backtrack
