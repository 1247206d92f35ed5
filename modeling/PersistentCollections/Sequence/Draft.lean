/-
Drafts: a sequence in the hands of one owner, for many edits in a row.

An insertion next to the one before it goes into the focus and costs no
new path in the tree. Closing a draft hands out the sequence and ends
the draft: whatever is asked of it afterwards is refused, before any
position is looked at.
-/
import PersistentCollections.Sequence.Split

namespace PersistentCollections.Sequence

variable {α : Type}

/-- A sequence being edited, or nothing once it is closed. -/
structure Draft (α : Type) where
  content : Option (Sequence α)

/-- A draft that starts as `seq`. -/
def draft (seq : Sequence α) : Draft α := ⟨some seq⟩

namespace Draft

/-- The draft without elements. -/
def empty : Draft α := ⟨some Sequence.empty⟩

/-- The sequence under edit, unless the draft is closed. -/
def opened (draft : Draft α) : Except Failure (Sequence α) :=
  match draft.content with
  | some seq => .ok seq
  | none => .error (.draftClosed "TransientRrbVector")

/-- The number of elements. -/
def size (draft : Draft α) : Except Failure Nat :=
  draft.opened.map Sequence.length

/-- Whether the draft has no elements. -/
def isEmpty (draft : Draft α) : Except Failure Bool :=
  draft.opened.map Sequence.isEmpty

/-- The element at `index`, if there is one. -/
def get? (draft : Draft α) (index : Nat) :
    Except Failure (Option α) :=
  draft.opened.map (Sequence.get? · index)

/-- Appends `value`. -/
def push (draft : Draft α) (value : α) :
    Except Failure (Draft α) := do
  return (← (← draft.opened).push value).draft

/-- Appends all of `values`. -/
def pushAll (draft : Draft α) (values : List α) :
    Except Failure (Draft α) := do
  return (← values.foldlM Sequence.push (← draft.opened)).draft

/-- Puts `value` before position `index`. -/
def insert (draft : Draft α) (index : Nat) (value : α) :
    Except Failure (Draft α) := do
  return (← (← draft.opened).insertNear index value).draft

/-- Puts `value` in place of the element at `index`, and answers the
element that was there. -/
def replace (draft : Draft α) (index : Nat) (value : α) :
    Except Failure (α × Draft α) := do
  let seq ← draft.opened
  if seq.length ≤ index then
    throw (seq.refuse index)
  else
    let old ← Failure.ofShape (seq.get? index)
    return (old, (← seq.set index value).draft)

/-- Ends the draft and answers its sequence. -/
def close (draft : Draft α) :
    Except Failure (Sequence α × Draft α) := do
  return (← draft.opened, ⟨none⟩)

end Draft

end PersistentCollections.Sequence
