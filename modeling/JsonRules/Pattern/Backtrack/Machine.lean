import JsonRules.Pattern.Backtrack.Program
import JsonRules.Pattern.Linear.Plan

/-!
# The backtracking machine

A machine runs a program on a text. A thread is what is left to do, the position in the text
and the groups that have been matched; where a program offers a choice, the machine goes on
with one thread and keeps the other. When a thread fails, the machine goes back to the one
that was kept last, which counts as a step back; the number of those is limited. The number of
threads that are kept is not: the engine that the machine stands for gives up on a match with an
error of its own once it has a million of them, and a search that keeps so many at a time ends
otherwise here.

`Task.exec` is one step of a thread, and `Machine.run` a run to its end.
-/

namespace JsonRules.Pattern.Backtrack

open Linear (Plan Places)

/-- A piece made ready for a text: its plan, the positions it matches from, and its length if
that does not depend on them. -/
structure ReadyPiece where
  plan : Plan
  places : Nat
  length? : Option Nat

/-- A text with what does not change while it is searched. -/
structure Haystack where
  chars : Array Char
  /-- All positions of the text. -/
  positions : Nat

namespace Haystack

def ofText (text : List Char) : Haystack := ⟨text.toArray, Linear.allPositions text⟩

def length (h : Haystack) : Nat := h.chars.size

def sameAt (h : Haystack) (i j length : Nat) : Bool :=
  j + length ≤ h.length && (List.range length).all fun k => h.chars[i + k]? == h.chars[j + k]?

def pieceEnd? (h : Haystack) (p : ReadyPiece) (i : Nat) : Option Nat :=
  if p.places.testBit i then
    some (match p.length? with
      | some n => i + n
      | none => p.plan.firstEnd (h.length + 1) i h.positions)
  else none

end Haystack

def Piece.ready (text : List Char) (places : Places) (positions : Nat) (p : Piece) : ReadyPiece :=
  let plan := p.regex.plan text places
  ⟨plan, plan.retreat (text.length + 1) positions, p.length?⟩

inductive Task where
  | run (program : Program ReadyPiece)
  /-- Ends the match of a group. -/
  | close (index : Nat)
  /-- Goes back to where a look started. -/
  | returnTo (position : Nat)
  /-- Fails a negative look, together with the threads kept since it started. -/
  | refute (kept : Nat)
  /-- Drops the threads kept since an atomic part started. -/
  | commit (kept : Nat)
  /-- Goes on with a guarded repetition after `count` times; the last of them that could have
  been left out started at `last?`. -/
  | guarded (least : Nat) (greedy : Bool) (body : Program ReadyPiece) (count : Nat)
      (last? : Option Nat)
  /-- Goes on with a counted repetition after `count` times. -/
  | counted (least most : Nat) (greedy : Bool) (body : Program ReadyPiece) (count : Nat)

/-- Where a group starts and where it ends, as far as it has been matched. -/
structure Capture where
  start? : Option Nat
  stop? : Option Nat
  deriving Inhabited

structure Thread where
  tasks : List Task
  position : Nat
  captures : List Capture

inductive Move where
  | go (thread : Thread)
  /-- Goes on with the first thread and keeps the second. -/
  | split (thread kept : Thread)
  | fail
  /-- Goes on, and keeps only the first `kept` of the threads. -/
  | cut (thread : Thread) (kept : Nat)
  /-- Fails, and keeps only the first `kept` of the threads. -/
  | failCut (kept : Nat)

namespace Thread

/-- Goes on with one thing first and keeps another, in the order that `greedy` asks for. -/
def prefer (t : Thread) (greedy : Bool) (more done : List Task) : Move :=
  if greedy then .split { t with tasks := more } { t with tasks := done }
  else .split { t with tasks := done } { t with tasks := more }

end Thread

namespace Task

/-- One step of a thread, where `rest` is left to do after the task and `kept` threads are
kept. -/
def exec (h : Haystack) (kept : Nat) (t : Thread) (rest : List Task) : Task → Move
  | run (.piece p) =>
    match h.pieceEnd? p t.position with
    | some i => .go { t with tasks := rest, position := i }
    | none => .fail
  | run .any =>
    if t.position < h.length then .go { t with tasks := rest, position := t.position + 1 }
    else .fail
  | run .start => if t.position = 0 then .go { t with tasks := rest } else .fail
  | run .stop => if t.position = h.length then .go { t with tasks := rest } else .fail
  | run (.seq ps) => .go { t with tasks := ps.map run ++ rest }
  | run (.alt []) => .fail
  | run (.alt [p]) => .go { t with tasks := run p :: rest }
  | run (.alt (p :: ps)) => t.prefer true (run p :: rest) (run (.alt ps) :: rest)
  | run (.capture i p) =>
    let captures := t.captures.modify i fun c => { c with start? := some t.position }
    .go { t with tasks := run p :: close i :: rest, captures := captures }
  | close i =>
    let captures := t.captures.modify i fun c => { c with stop? := some t.position }
    .go { t with tasks := rest, captures := captures }
  | run (.optional greedy p) => t.prefer greedy (run p :: rest) rest
  | run (.star (n + 1) greedy p) =>
    .go { t with tasks := run p :: run (.star n greedy p) :: rest }
  | run (.star 0 greedy p) => t.prefer greedy (run p :: run (.star 0 greedy p) :: rest) rest
  | run (.guarded least greedy p) =>
    .go { t with tasks := guarded least greedy p 0 none :: rest }
  | guarded least greedy p count last? =>
    if least < count ∧ last? = some t.position then .fail
    else if count < least then
      .go { t with tasks := run p :: guarded least greedy p (count + 1) last? :: rest }
    else
      t.prefer greedy
        (run p :: guarded least greedy p (count + 1) (some t.position) :: rest) rest
  | run (.counted least most greedy p) =>
    .go { t with tasks := counted least most greedy p 0 :: rest }
  | counted least most greedy p count =>
    if count = most then .go { t with tasks := rest }
    else
      let more := run p :: counted least most greedy p (count + 1) :: rest
      if count < least then .go { t with tasks := more } else t.prefer greedy more rest
  | run (.look back false p) =>
    if t.position < back then .fail
    else
      .go { t with
        tasks := run p :: returnTo t.position :: rest, position := t.position - back }
  | run (.look back true p) =>
    let after : Thread := { t with tasks := rest }
    if t.position < back then .go after
    else
      .split { t with tasks := run p :: refute kept :: rest, position := t.position - back } after
  | returnTo i => .go { t with tasks := rest, position := i }
  | refute n => .failCut n
  | run (.backref i) =>
    match t.captures[i]? with
    | some ⟨some start, some stop⟩ =>
      let length := stop - start
      if start ≤ stop ∧ h.sameAt start t.position length then
        .go { t with tasks := rest, position := t.position + length }
      else .fail
    | _ => .fail
  | run (.atomic p) => .go { t with tasks := run p :: commit kept :: rest }
  | commit n => .cut { t with tasks := rest } n

end Task

inductive Outcome where
  | matched
  | unmatched
  /-- It was given up. -/
  | stopped
  deriving DecidableEq, Repr

namespace Machine

/-- Goes back to the thread that was kept last, if `budget` allows another step back. -/
def resume (budget : Nat) (kept : List Thread) : Outcome ⊕ (Thread × Nat × List Thread) :=
  match kept, budget with
  | [], _ => .inl .unmatched
  | _ :: _, 0 => .inl .stopped
  | t :: kept, budget + 1 => .inr (t, budget, kept)

/-- Drops all but the first `n` of `count` threads, the last one of which comes first. -/
def keepFirst (n count : Nat) (kept : List Thread) : List Thread := kept.drop (count - n)

/-- Runs a thread with `count` threads kept, for at most `fuel` steps. -/
def run (h : Haystack) : Nat → Nat → Thread → Nat → List Thread → Outcome
  | 0, _, _, _, _ => .stopped
  | fuel + 1, budget, t, count, kept =>
    match t.tasks with
    | [] => .matched
    | task :: rest =>
      let back (count : Nat) (kept : List Thread) : Outcome :=
        match resume budget kept with
        | .inl outcome => outcome
        | .inr (t, budget, kept) => run h fuel budget t (count - 1) kept
      match task.exec h count t rest with
      | .go t => run h fuel budget t count kept
      | .split t other => run h fuel budget t (count + 1) (other :: kept)
      | .fail => back count kept
      | .cut t n => run h fuel budget t n (keepFirst n count kept)
      | .failCut n => back n (keepFirst n count kept)

end Machine

/-- Runs a program at a position of a text, for a pattern with `groups` groups and with no more than
`limit` steps back. Between two steps back a run takes no more than `Program.steps`. -/
def Program.runAt (program : Program Piece) (groups limit : Nat) (text : List Char) (i : Nat) :
    Outcome :=
  let h := Haystack.ofText text
  let ready := program.map (Piece.ready text (Places.ofText text) h.positions)
  let captures := List.replicate (groups + 1) ⟨none, none⟩
  Machine.run h ((limit + 1) * (ready.steps h.length + 2)) limit ⟨[.run ready], i, captures⟩ 0 []

/-- A search starts at the first position; its program moves on by itself. -/
def Program.search (program : Program Piece) (groups limit : Nat) (text : List Char) : Outcome :=
  program.runAt groups limit text 0

end JsonRules.Pattern.Backtrack
