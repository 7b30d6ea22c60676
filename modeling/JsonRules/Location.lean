/-!
# Locations

A location says which element of a value is meant, as the array indices that lead to it from
the value itself.
-/

namespace JsonRules

/-- Array indices from the outermost to the innermost. -/
structure Location where
  indices : List Nat
  deriving DecidableEq, Repr

namespace Location

def root : Location := ⟨[]⟩

def ofIndex (index : Nat) : Location := ⟨[index]⟩

/-- The element with the given index of what is at the location. -/
def push (l : Location) (index : Nat) : Location := ⟨l.indices ++ [index]⟩

def isRoot (l : Location) : Bool := l.indices.isEmpty

def length (l : Location) : Nat := l.indices.length

def parent? (l : Location) : Option Location :=
  if l.indices.isEmpty then none else some ⟨l.indices.dropLast⟩

def last? (l : Location) : Option Nat := l.indices.getLast?

/-- The location `inner` of what is at the location `outer`. -/
def append (outer inner : Location) : Location := ⟨outer.indices ++ inner.indices⟩

/-- Each index in brackets. -/
def text (l : Location) : String := String.join (l.indices.map fun i => s!"[{i}]")

@[simp] theorem parent?_push (l : Location) (i : Nat) : (l.push i).parent? = some l := by
  simp [parent?, push]

@[simp] theorem last?_push (l : Location) (i : Nat) : (l.push i).last? = some i := by
  simp [last?, push]

@[simp] theorem append_push (l m : Location) (i : Nat) :
    l.append (m.push i) = (l.append m).push i := by
  simp [append, push]

@[simp] theorem append_root (l : Location) : l.append root = l := by simp [append, root]

@[simp] theorem root_append (l : Location) : root.append l = l := by simp [append, root]

end Location

end JsonRules
