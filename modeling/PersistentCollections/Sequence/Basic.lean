/-
Persistent sequences: a tree of elements and a focus on top of it.

The focus is a short run of elements that the tree does not hold yet.
It collects what is appended or inserted at one place; when an edit
moves elsewhere the focus is put into the tree at its place, and the
edit starts a new one. So a position is looked up in the focus if it
lies there, and otherwise in the tree, after the elements of a focus
further left have been taken off.

Every edit leaves the sequence it reads as it is. An edit answers an
`Except`: it may refuse a position, and it stops at a tree of a shape
that no edits build (see `Failure.brokenInvariant`) and at a number that
no word holds (see `Failure.overflow`). An edit that adds elements counts
them when everything else is done.
-/
import PersistentCollections.Edit
import PersistentCollections.Sequence.Node.Insert

namespace PersistentCollections

open Sequence (Node packedWidth)

/-- A sequence of elements. -/
structure Sequence (α : Type) where
  /-- Every element outside the focus. -/
  root : Node α
  /-- The elements not yet put into the tree. -/
  focus : List α
  /-- The position of the first focus element, in the sequence and in
  the tree. -/
  focusStart : Nat
  /-- The number of elements, the focus included. -/
  length : Nat

namespace Sequence

variable {α : Type}

/-- The sequence without elements. -/
def empty : Sequence α := ⟨Node.empty, [], 0, 0⟩

/-- The sequence of one element. -/
def singleton (value : α) : Sequence α := ⟨Node.empty, [value], 0, 1⟩

/-- A tree under an empty focus at its end. -/
def ofRoot (root : Node α) (length : Nat) : Sequence α :=
  ⟨root, [], length, length⟩

/-- Whether the sequence has no elements. -/
def isEmpty (seq : Sequence α) : Bool := seq.length == 0

/-- The position after the last focus element. -/
def focusEnd (seq : Sequence α) : Nat :=
  seq.focusStart + seq.focus.length

/-- Whether the focus holds the element at `index`. -/
def inFocus (seq : Sequence α) (index : Nat) : Bool :=
  seq.focusStart ≤ index && index < seq.focusEnd

/-- The position in the tree of a position outside the focus. -/
def treeIndex (seq : Sequence α) (index : Nat) : Nat :=
  if index < seq.focusStart then index else index - seq.focus.length

/-- The refusal of a position. -/
def refuse (seq : Sequence α) (index : Nat) : Failure :=
  .outOfBounds index seq.length

-- ========================================================== reads

/-- The element at `index`, if there is one. -/
def get? (seq : Sequence α) (index : Nat) : Option α :=
  if seq.length ≤ index then
    none
  else if seq.inFocus index then
    seq.focus[index - seq.focusStart]?
  else
    seq.root.get? (seq.treeIndex index)

/-- The first element, if there is one. -/
def first? (seq : Sequence α) : Option α := seq.get? 0

/-- The last element, if there is one. -/
def last? (seq : Sequence α) : Option α :=
  if seq.isEmpty then none else seq.get? (seq.length - 1)

/-- The element at `index`, where a missing one is an error. -/
def subscript (seq : Sequence α) (index : Nat) :
    Except Failure α :=
  match seq.get? index with
  | some value => .ok value
  | none => .error (.badSubscript "RrbVector" index seq.length)

/-- The stored run of elements that holds `index`, and the position of
its first element. A leaf that the focus divides gives the part on the
side of `index` alone. -/
def runAt? (seq : Sequence α) (index : Nat) : Option (List α × Nat) :=
  if seq.inFocus index then
    some (seq.focus, seq.focusStart)
  else do
    let (values, offset) ← seq.root.leafAround? (seq.treeIndex index)
    let start := seq.treeIndex index - offset
    if index < seq.focusStart then
      let stop := min (start + values.length) seq.focusStart
      return (← Run.slice? values 0 (stop - start), start)
    else
      let first := max start seq.focusStart
      return (← Run.slice? values (first - start) values.length,
        first + seq.focus.length)

-- ========================================================== edits

/-- The tree with the focus put into it. -/
def flushed (seq : Sequence α) : Except Failure (Node α) :=
  seq.root.insertRun seq.focusStart seq.focus

/-- The number of elements with one element more. -/
def counted (seq : Sequence α) : Except Failure Nat :=
  inWord "add" (seq.length + 1)

/-- Puts the focus into the tree and starts another one at `index`. -/
def refocus (seq : Sequence α) (index : Nat) (value : α) :
    Except Failure (Sequence α) := do
  let root ← seq.flushed
  return ⟨root, [value], index, ← seq.counted⟩

/-- Appends `value`, to the focus if it lies at the end and has room. -/
def push (seq : Sequence α) (value : α) :
    Except Failure (Sequence α) :=
  if seq.focusEnd == seq.length && seq.focus.length < packedWidth then do
    let length ← seq.counted
    return { seq with focus := seq.focus ++ [value], length }
  else
    seq.refocus seq.length value

/-- Puts `value` before position `index`; at the end it is appended,
anywhere else it becomes a new focus. -/
def insert (seq : Sequence α) (index : Nat) (value : α) :
    Except Failure (Sequence α) :=
  if seq.length < index then
    .error (seq.refuse index)
  else if index == seq.length then
    seq.push value
  else
    seq.refocus index value

/-- Puts `value` in place of the element at `index`. -/
def set (seq : Sequence α) (index : Nat) (value : α) :
    Except Failure (Sequence α) :=
  if seq.length ≤ index then
    .error (seq.refuse index)
  else if seq.inFocus index then do
    let focus ← Failure.ofShape
      (Run.set? seq.focus (index - seq.focusStart) value)
    return { seq with focus }
  else do
    let root ← Failure.ofShape
      (seq.root.set? (seq.treeIndex index) value)
    return { seq with root }

/-- The sequence of the given elements. -/
def ofList (values : List α) : Except Failure (Sequence α) :=
  values.foldlM push empty

end Sequence

end PersistentCollections
