/-
A cursor between two elements of a sequence.

It moves over the element after it or the element before it, and keeps
the run of stored elements that it met last, as a walk does.
-/
import PersistentCollections.Sequence.Walk

namespace PersistentCollections.Sequence

variable {α : Type}

/-- A place between two elements, or at either end. -/
structure Cursor (α : Type) where
  /-- The sequence the cursor moves in. -/
  source : Sequence α
  /-- The number of elements before the cursor. -/
  position : Nat
  /-- The run the cursor met last, and where it starts. -/
  run : List α × Nat

/-- The cursor before the first element. -/
def cursor (seq : Sequence α) : Cursor α := ⟨seq, 0, ([], 0)⟩

/-- The cursor before the element at `index`; the length addresses the
place after the last one. -/
def cursorAt (seq : Sequence α) (index : Nat) :
    Except Failure (Cursor α) :=
  if seq.length < index then
    .error (seq.refuse index)
  else
    .ok ⟨seq, index, ([], 0)⟩

namespace Cursor

/-- Whether an element follows the cursor. -/
def hasNext (cursor : Cursor α) : Bool :=
  cursor.position < cursor.source.length

/-- Whether an element precedes the cursor. -/
def hasPrevious (cursor : Cursor α) : Bool := 0 < cursor.position

/-- The position of the element that `next` would take. -/
def nextIndex (cursor : Cursor α) : Nat := cursor.position

/-- The position of the element that `previous` would take. -/
def previousIndex (cursor : Cursor α) : Option Nat :=
  if cursor.position = 0 then none else some (cursor.position - 1)

/-- Moves over the element after the cursor and answers it. -/
def next (cursor : Cursor α) : Option α × Cursor α :=
  if cursor.hasNext then
    match cursor.source.fetch? cursor.run cursor.position with
    | none => (none, cursor)
    | some (value, run) =>
      (some value, { cursor with
        position := cursor.position + 1
        run := run })
  else
    (none, cursor)

/-- Moves back over the element before the cursor and answers it. -/
def previous (cursor : Cursor α) : Option α × Cursor α :=
  if cursor.hasPrevious then
    match cursor.source.fetch? cursor.run (cursor.position - 1) with
    | none => (none, cursor)
    | some (value, run) =>
      (some value, { cursor with
        position := cursor.position - 1
        run := run })
  else
    (none, cursor)

end Cursor

end PersistentCollections.Sequence
