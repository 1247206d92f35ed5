/-
Putting a run of elements into a tree before a position.

The run goes down to the leaf that holds the position. A leaf takes it
whole if it stays within its width; two runs that are long enough stay
side by side when the position lies at the leaf's edge; everything else
is merged and cut in half. A node that has no room left answers with
two nodes of its own height, and its parent makes room for one child
more.

There is one short way: a run of exactly 32 elements at the end of a
packed branch whose size is a multiple of 32 becomes a leaf of its own,
and every branch on the way stays packed. The way down asks each branch
how many elements it holds when it is full, and that is the one number
here that can be past the words: a branch may stand so high that 32 full
children would be more elements than a word can count.
-/
import PersistentCollections.Edit
import PersistentCollections.Sequence.Node

namespace PersistentCollections.Sequence.Node

variable {α : Type}

/-- What stands in place of a node that took in more elements: one
node, or two of the same height. -/
inductive Grown (α : Type) where
  | one (node : Node α)
  | two (left right : Node α)

-- ======================================================== at a leaf

/-- Takes `items` into a leaf before `index`. -/
def insertIntoLeaf? (values : List α) (index : Nat) (items : List α) :
    Option (Grown α) :=
  if values.length + items.length ≤ mostWidth then
    (Run.insert? values index items).map fun merged => .one (leaf merged)
  else
    let apart :=
      leastWidth ≤ items.length && leastWidth ≤ values.length
    if apart && index == values.length then
      some (.two (leaf values) (leaf items))
    else if apart && index == 0 then
      some (.two (leaf items) (leaf values))
    else do
      let (left, right) := Run.halves (← Run.insert? values index items)
      return .two (leaf left) (leaf right)

-- ============================================== a full leaf at the end

mutual

/-- Appends a leaf of 32 elements to a packed branch whose size is a
multiple of 32. A branch without room stays as it is, beside a branch of
its height that holds the leaf alone. -/
def appendLeaf : Node α → Node α → Except Failure (Grown α)
  | node@(packed shift size children), newLeaf => do
    let full ← inWord "shift left" (1 <<< shift)
    let most ← inWord "multiply" (full * packedWidth)
    if size == most then
      return .two node (newLeaf.raiseTo (shift / levelBits))
    else
      return .one (packed shift (size + packedWidth)
        (← appendLeafLast shift children newLeaf))
  | _, _ => .error .brokenInvariant

/-- Appends a leaf below the last child, or beside it if it is full. -/
def appendLeafLast (shift : Nat) :
    List (Node α) → Node α → Except Failure (List (Node α))
  | [], _ => .error .brokenInvariant
  | [last], newLeaf =>
    let height := shift / levelBits
    if height == 1 || last.size == 1 <<< shift then
      .ok [last, newLeaf.raiseTo (height - 1)]
    else do
      match ← last.appendLeaf newLeaf with
      | .one child => return [child]
      | .two _ _ => .error .brokenInvariant
  | child :: next :: rest, newLeaf => do
    return child :: (← appendLeafLast shift (next :: rest) newLeaf)

end

-- ======================================================= at a branch

/-- A branch over `children`, or two halves if they are too many. -/
def divide? (children : List (Node α)) : Option (Grown α) :=
  if children.length ≤ mostWidth then
    (branch? children).map .one
  else do
    let (left, right) := Run.halves children
    return .two (← branch? left) (← branch? right)

mutual

/-- Takes `items` into a tree before `index`. -/
def insertInto : Node α → Nat → List α → Except Failure (Grown α)
  | leaf values, index, items =>
    Failure.ofShape (insertIntoLeaf? values index items)
  | node@(packed _ size children), index, items =>
    if index == size && items.length == packedWidth
        && size % packedWidth == 0 then
      node.appendLeaf (leaf items)
    else do
      let (position, inner) ← Failure.ofShape (node.wayTo? index)
      let row ← childInsertInto children position inner items
      Failure.ofShape (divide? row)
  | node@(relaxed _ children), index, items => do
    let (position, inner) ← Failure.ofShape (node.wayTo? index)
    let row ← childInsertInto children position inner items
    Failure.ofShape (divide? row)

/-- Takes `items` into the child at `position` before its `index`. -/
def childInsertInto :
    List (Node α) → Nat → Nat → List α → Except Failure (List (Node α))
  | [], _, _, _ => .error .brokenInvariant
  | child :: rest, 0, index, items => do
    match ← child.insertInto index items with
    | .one node => return node :: rest
    | .two left right => return left :: right :: rest
  | child :: rest, position + 1, index, items => do
    return child :: (← childInsertInto rest position index items)

end

/-- The root of the tree with `items` before `index`. -/
def insertRun (root : Node α) (index : Nat) (items : List α) :
    Except Failure (Node α) :=
  if items.isEmpty then
    .ok root
  else do
    match ← root.insertInto index items with
    | .one node => return node
    | .two left right => Failure.ofShape (branch? [left, right])

end PersistentCollections.Sequence.Node
