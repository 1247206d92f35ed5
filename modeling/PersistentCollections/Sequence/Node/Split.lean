/-
Cutting a tree in two before a position.

The way to the position is cut out of the tree. What lies left of the
way becomes one piece per level, and so does what lies right of it;
each side is put together again by joining its pieces, which evens out
the new edges.
-/
import PersistentCollections.Sequence.Node.Join

namespace PersistentCollections.Sequence.Node

variable {α : Type}

/-- Some neighbouring children as a tree of their own. -/
def subtree? (children : List (Node α)) : Option (Node α) :=
  (branch? children).map lowered

/-- No piece from no children. -/
def subtrees? (children : List (Node α)) : Option (List (Node α)) :=
  if children.isEmpty then
    some []
  else
    return [← subtree? children]

/-- The pieces around a way that goes on at `inner` of the child at
`position`; `below` are the pieces of that child. A way that ends at
the child's edge leaves the child whole, on the right. -/
def cutAround? (children : List (Node α)) (position inner : Nat)
    (below : Unit → Option (List (Node α) × List (Node α))) :
    Option (List (Node α) × List (Node α)) := do
  let left ← subtrees? (children.take position)
  if inner == 0 then
    return (left, [← subtree? (children.drop position)])
  else
    let right ← subtrees? (children.drop (position + 1))
    let (lefts, rights) ← below ()
    return (left ++ lefts, right ++ rights)

mutual

/-- The pieces left and right of `index`, the outermost level first. -/
def cut? : Node α → Nat → Option (List (Node α) × List (Node α))
  | leaf values, index => do
    let (left, right) ← Run.cut? values index
    return ([leaf left], [leaf right])
  | node@(packed _ _ children), index => do
    let (position, inner) ← node.wayTo? index
    cutAround? children position inner fun _ =>
      childCut? children position inner
  | node@(relaxed _ children), index => do
    let (position, inner) ← node.wayTo? index
    cutAround? children position inner fun _ =>
      childCut? children position inner

/-- The pieces of the child at `position` around its `index`. -/
def childCut? :
    List (Node α) → Nat → Nat → Option (List (Node α) × List (Node α))
  | [], _, _ => none
  | child :: _, 0, index => child.cut? index
  | _ :: rest, position + 1, index => childCut? rest position index

end

/-- The tree of the first `index` elements, and that of the rest. -/
def split? (root : Node α) (index : Nat) : Option (Node α × Node α) :=
  if index == 0 then
    some (empty, root)
  else if root.size ≤ index then
    some (root, empty)
  else do
    let (lefts, rights) ← root.cut? index
    return (← joinAll? lefts, ← joinAll? rights.reverse)

end PersistentCollections.Sequence.Node
