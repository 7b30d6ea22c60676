import JsonRules.Unicode.CodeSet

/-!
# Run-length tables

A table gives a label to every code point from zero on as consecutive runs. It is read from
lines of text, a label of fixed width before each count, into the starts of the runs, where
binary search finds the label of a code point.
-/

namespace JsonRules.Unicode

/-- A run while it is read: the letters of its label, last one first, and its count. -/
structure OpenRun where
  label : List Char
  count : Option Nat

namespace OpenRun

def close (r : OpenRun) : String × Nat := (String.ofList r.label.reverse, r.count.getD 1)

end OpenRun

/-- The labels and counts of a line, for labels of `width` letters. -/
def readRuns (width : Nat) (line : String) : List (String × Nat) :=
  let start : List (String × Nat) × OpenRun := ([], ⟨[], none⟩)
  let (done, last) := line.toList.foldl
    (fun (done, run) c =>
      if c.isDigit then (done, { run with count := some (run.count.getD 0 * 10 + (c.toNat - 48)) })
      else if run.label.length = width then (run.close :: done, ⟨[c], none⟩)
      else (done, { run with label := c :: run.label })) start
  (if last.label.isEmpty then done else last.close :: done).reverse

/-- The starts of consecutive runs, each with its label. -/
structure RunTable (α : Type) where
  starts : Array (Nat × α)

namespace RunTable

/-- The table of runs that follow one another from zero on. -/
def ofRuns {α : Type} (runs : List (α × Nat)) : RunTable α :=
  ⟨(runs.foldl (fun (table, next) (label, count) => (table.push (next, label), next + count))
    ((#[] : Array (Nat × α)), 0)).1⟩

/-- The label of the last run in `lo..hi` that starts at or before the code point. -/
def search {α : Type} (table : RunTable α) (code lo hi : Nat) : Option α :=
  if hi ≤ lo + 1 then (table.starts[lo]?).map Prod.snd
  else
    let mid := (lo + hi) / 2
    match table.starts[mid]? with
    | some (start, _) => if start ≤ code then search table code mid hi else search table code lo mid
    | none => none
termination_by hi - lo

def find? {α : Type} (table : RunTable α) (code : Nat) : Option α :=
  table.search code 0 table.starts.size

def toRanges {α : Type} (table : RunTable α) : List (CodeRange × α) :=
  let starts := table.starts.toList
  let ends := (starts.drop 1).map (fun r => r.1 - 1) ++ [maxCode]
  List.zipWith (fun (start, label) stop => (⟨start, stop⟩, label)) starts ends

def select {α : Type} (table : RunTable α) (p : α → Bool) : CodeSet :=
  (table.toRanges.filter fun r => p r.2).map Prod.fst

end RunTable

end JsonRules.Unicode
