/-
The tree below a sequence: a radix tree whose nodes may be relaxed.

A leaf holds elements. A packed branch has at most 32 children, all but
the last of them full, so the child that holds a position is read off
the position's bits. A relaxed branch has at most 44 children of any
sizes and finds the child through a table of running totals. All leaves
lie at the same depth.

This module holds the type, the choice between the two layouts
(`branch?`), the way from a position to a child (`wayTo?`), and the
reads. Reads walk the list of children by structural recursion, one
function for a node and one for a list of children in each pair.
-/
import PersistentCollections.Run
import PersistentCollections.Sequence.SizeTable

namespace PersistentCollections.Sequence

/-- Bits of a position that one level of packed branches reads. -/
abbrev levelBits : Nat := 5

/-- Children of a full packed branch, and elements of a full focus. -/
abbrev packedWidth : Nat := 32

/-- The least width at which a node is left alone beside a neighbour. -/
abbrev leastWidth : Nat := 22

/-- The most elements of a leaf and the most children of a branch. -/
abbrev mostWidth : Nat := 44

/-- A tree of elements. -/
inductive Node (α : Type) where
  /-- Elements in order. -/
  | leaf (values : List α)
  /-- Children that are full but for the last; `shift` bits of a
  position address inside one child. -/
  | packed (shift size : Nat) (children : List (Node α))
  /-- Children of any sizes; the table holds the running totals. -/
  | relaxed (table : List Nat) (children : List (Node α))

namespace Node

variable {α : Type}

/-- The tree without elements. -/
def empty : Node α := leaf []

/-- The number of elements, as the node records it. -/
def size : Node α → Nat
  | leaf values => values.length
  | packed _ size _ => size
  | relaxed table _ => table.getLast?.getD 0

/-- The distance to the leaves. -/
def height : Node α → Nat
  | leaf _ => 0
  | packed shift _ _ => shift / levelBits
  | relaxed _ [] => 1
  | relaxed _ (child :: _) => child.height + 1

/-- The children of a branch; a leaf has none. -/
def children : Node α → List (Node α)
  | leaf _ => []
  | packed _ _ children => children
  | relaxed _ children => children

/-- Whether the node is a branch. -/
def isBranch : Node α → Bool
  | leaf _ => false
  | _ => true

/-- Whether the node finds its children through a table. -/
def isRelaxed : Node α → Bool
  | relaxed _ _ => true
  | _ => false

-- ============================================= choosing a layout

/-- Whether bits can address `children` of the given capacity: each is
full but the last, which may be smaller, and none is relaxed. -/
def packs (capacity : Nat) : List (Node α) → Bool
  | [] => true
  | [last] => last.size ≤ capacity && !last.isRelaxed
  | child :: rest =>
    child.size == capacity && !child.isRelaxed && packs capacity rest

/-- The branch over `children`, packed whenever they allow it. There is
no branch without children. Where the room of a child is past the words
no child fills it, so there a packed branch has one child. -/
def branch? (children : List (Node α)) : Option (Node α) :=
  match children with
  | [] => none
  | first :: _ =>
    let shift := (first.height + 1) * levelBits
    let sizes := children.map size
    if children.length ≤ packedWidth && packs (1 <<< shift) children then
      some (packed shift (SizeTable.sum sizes) children)
    else
      some (relaxed (SizeTable.totals 0 sizes) children)

/-- `node` below `levels` branches of one child each. -/
def raise (node : Node α) : Nat → Node α
  | 0 => node
  | levels + 1 =>
    let child := raise node levels
    packed ((child.height + 1) * levelBits) child.size [child]

/-- `node` raised to the given height. -/
def raiseTo (node : Node α) (height : Nat) : Node α :=
  node.raise (height - node.height)

/-- The node below all branches of one child. -/
def lowered : Node α → Node α
  | packed _ _ [child] => child.lowered
  | relaxed _ [child] => child.lowered
  | node => node

-- ======================================== from position to child

/-- The child that holds `index`, and the position inside that child.
The size of the branch addresses the end of its last child. -/
def wayTo? (node : Node α) (index : Nat) : Option (Nat × Nat) :=
  match node.children.getLast? with
  | none => none
  | some last =>
    if node.size ≤ index then
      if last.size ≤ node.size then
        some (node.children.length - 1, index - (node.size - last.size))
      else
        none
    else
      match node with
      | leaf _ => none
      | packed shift _ _ => some (index >>> shift, index % (1 <<< shift))
      | relaxed table _ => do
        let part ← SizeTable.part? table index
        let before ← SizeTable.before? table part
        some (part, index - before)

-- ========================================================== reads

mutual

/-- The element at `index`, if the tree has one there. -/
def get? : Node α → Nat → Option α
  | leaf values, index => values[index]?
  | packed shift _ children, index =>
    childGet? children (index >>> shift) (index % (1 <<< shift))
  | relaxed table children, index => do
    if (← table.getLast?) ≤ index then
      none
    else
      let part ← SizeTable.part? table index
      childGet? children part (index - (← SizeTable.before? table part))

/-- The element at `index` of the child at `position`. -/
def childGet? : List (Node α) → Nat → Nat → Option α
  | [], _, _ => none
  | child :: _, 0, index => child.get? index
  | _ :: rest, position + 1, index => childGet? rest position index

end

mutual

/-- The leaf that holds `index`, and the offset of `index` in it. -/
def leafAround? : Node α → Nat → Option (List α × Nat)
  | leaf values, index => some (values, index)
  | node@(packed _ _ children), index => do
    let (position, inner) ← node.wayTo? index
    childLeafAround? children position inner
  | node@(relaxed _ children), index => do
    let (position, inner) ← node.wayTo? index
    childLeafAround? children position inner

/-- The leaf that holds `index` of the child at `position`. -/
def childLeafAround? : List (Node α) → Nat → Nat → Option (List α × Nat)
  | [], _, _ => none
  | child :: _, 0, index => child.leafAround? index
  | _ :: rest, position + 1, index => childLeafAround? rest position index

end

-- ======================================================== replace

mutual

/-- The tree with `value` at `index`; only the path to it is new. -/
def set? : Node α → Nat → α → Option (Node α)
  | leaf values, index, value =>
    (Run.set? values index value).map leaf
  | node@(packed shift size children), index, value => do
    let (position, inner) ← node.wayTo? index
    return packed shift size (← childSet? children position inner value)
  | node@(relaxed table children), index, value => do
    let (position, inner) ← node.wayTo? index
    return relaxed table (← childSet? children position inner value)

/-- The children with `value` at `index` of the one at `position`. -/
def childSet? : List (Node α) → Nat → Nat → α → Option (List (Node α))
  | [], _, _, _ => none
  | child :: rest, 0, index, value =>
    return (← child.set? index value) :: rest
  | child :: rest, position + 1, index, value =>
    return child :: (← childSet? rest position index value)

end

end Node

end PersistentCollections.Sequence
