/-
Cutting sequences, putting them together, and taking one element out.

A cut inside the focus, or at one of its edges, divides the focus and
cuts the tree where the focus starts; any other cut puts the focus into
the tree first. Two long sequences are joined tree to tree; a side of
fewer than 32 elements is added to the other one element by element.
-/
import PersistentCollections.Sequence.Node.Split
import PersistentCollections.Sequence.Walk

namespace PersistentCollections.Sequence

variable {α : Type}

/-- Puts `value` before position `index`, into the focus if the position
touches it and there is room. Differs from `insert` in the tree alone. -/
def insertNear (seq : Sequence α) (index : Nat) (value : α) :
    Except Failure (Sequence α) :=
  if seq.length < index then
    .error (seq.refuse index)
  else if index == seq.length then
    seq.push value
  else if seq.focusStart ≤ index && index ≤ seq.focusEnd
      && seq.focus.length < packedWidth then do
    let focus ← Failure.ofShape
      (Run.insert? seq.focus (index - seq.focusStart) [value])
    return { seq with focus, length := ← seq.counted }
  else
    seq.refocus index value

/-- Adds the elements of `values` before position `index`, in order. -/
def insertAllNear (seq : Sequence α) :
    Nat → List α → Except Failure (Sequence α)
  | _, [] => .ok seq
  | index, value :: rest => do
    insertAllNear (← seq.insertNear index value) (index + 1) rest

/-- The elements of `left` followed by those of `right`. -/
def append (left right : Sequence α) :
    Except Failure (Sequence α) :=
  if right.isEmpty then
    .ok left
  else if left.isEmpty then
    .ok right
  else if right.length < packedWidth then
    right.toList.foldlM push left
  else if left.length < packedWidth then
    right.insertAllNear 0 left.toList
  else do
    let rootLeft ← left.flushed
    let rootRight ← right.flushed
    let root ← Failure.ofShape (rootLeft.join? rootRight)
    return ofRoot root (← inWord "add" (left.length + right.length))

/-- The first `index` elements and the rest; there is at least one
element on the left. -/
def splitAt (seq : Sequence α) (index : Nat) :
    Except Failure (Sequence α × Sequence α) :=
  if index == 0 || seq.length < index then
    .error (seq.refuse index)
  else if seq.focusStart ≤ index && index ≤ seq.focusEnd then do
    let (rootLeft, rootRight) ← Failure.ofShape
      (seq.root.split? seq.focusStart)
    let (focusLeft, focusRight) ← Failure.ofShape
      (Run.cut? seq.focus (index - seq.focusStart))
    return (⟨rootLeft, focusLeft, seq.focusStart, index⟩,
      ⟨rootRight, focusRight, 0, seq.length - index⟩)
  else do
    let (rootLeft, rootRight) ← Failure.ofShape
      ((← seq.flushed).split? index)
    return (ofRoot rootLeft index,
      ofRoot rootRight (seq.length - index))

/-- The sequence without the element at `index`. -/
def eraseAt (seq : Sequence α) (index : Nat) :
    Except Failure (Sequence α) :=
  if seq.length ≤ index then
    .error (seq.refuse index)
  else if index == 0 then do
    return (← seq.splitAt 1).2
  else do
    let (left, right) ← seq.splitAt index
    left.append (← right.splitAt 1).2

end PersistentCollections.Sequence
