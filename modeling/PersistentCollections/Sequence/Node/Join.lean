/-
Joining two trees along the seam between them.

The taller tree gives up the child at its inner edge, or both trees do
when they are of one height; the two edges are joined first, one level
below, and the result is evened out together with the siblings that
were left. Only nodes along the seam are rebuilt.

An inner join can come out lower than the level asks for, when both
edges were small. It is then folded into the sibling next to it, on the
left as long as there is one and on the right after that; a result
that meets no sibling is handed up as it is.

The recursion goes by a bound on the height. The edges of two trees lie
below the taller of them, so the bound that `joinSeam?` starts from, the
height of the taller tree, is never used up in a tree whose leaves all
lie at one depth.
-/
import PersistentCollections.Sequence.Node.Rebalance

namespace PersistentCollections.Sequence.Node

variable {α : Type}

/-- The single node of a result that is too low to be a child at
`height`. -/
def low? (height : Nat) : List (Node α) → Option (Node α)
  | [node] => if node.height + 1 < height then some node else none
  | _ => none

/-- Folds `middle` into the siblings on its right while it is too low,
with `join` for two nodes; answers the whole row. -/
def foldRight? (join : Node α → Node α → Option (List (Node α)))
    (height : Nat) :
    List (Node α) → List (Node α) → Option (List (Node α))
  | middle, [] => some middle
  | middle, next :: rest =>
    match low? height middle with
    | none => some (middle ++ next :: rest)
    | some single => do
      foldRight? join height (← join single next) rest

/-- Folds `middle` into the siblings on its left, nearest first, while
it is too low, and then into those on its right. -/
def foldLeft? (join : Node α → Node α → Option (List (Node α)))
    (height : Nat) (right : List (Node α)) :
    List (Node α) → List (Node α) → Option (List (Node α))
  | [], middle => foldRight? join height middle right
  | next :: rest, middle =>
    match low? height middle with
    | none => some ((next :: rest).reverse ++ middle ++ right)
    | some single => do
      foldLeft? join height right rest (← join next single)

/-- The inner edge of the left tree and the siblings before it, nearest
first. A tree below `height` is its own edge. -/
def leftEdge? (height : Nat) (node : Node α) :
    Option (List (Node α) × Node α) :=
  if node.height == height then
    match node.children.reverse with
    | [] => none
    | edge :: rest => some (rest, edge)
  else
    some ([], node)

/-- The inner edge of the right tree and the siblings after it. -/
def rightEdge? (height : Nat) (node : Node α) :
    Option (Node α × List (Node α)) :=
  if node.height == height then
    match node.children with
    | [] => none
    | edge :: rest => some (edge, rest)
  else
    some (node, [])

/-- The row of one level as nodes of the level above: one node as it
is, up to 44 below one branch, more below two. -/
def gatherRow? (row : List (Node α)) : Option (List (Node α)) :=
  match row with
  | [node] => some [node]
  | _ =>
    if row.length ≤ mostWidth then do
      return [← branch? row]
    else do
      let (left, right) := Run.halves row
      return [← branch? left, ← branch? right]

/-- Joins two trees of at most `bound` levels above the leaves. -/
def joinWithin? : Nat → Node α → Node α → Option (List (Node α))
  | bound, left, right =>
    let height := max left.height right.height
    if height == 0 then
      evenOut? [left, right]
    else
      match bound with
      | 0 => none
      | bound + 1 => do
        let (before, edgeLeft) ← leftEdge? height left
        let (edgeRight, after) ← rightEdge? height right
        let middle ← joinWithin? bound edgeLeft edgeRight
        let row ←
          foldLeft? (joinWithin? bound) height after before middle
        gatherRow? (← evenOut? row)

/-- Joins two trees: one or two nodes of the greater height, or a
single lower one when all fits below. -/
def joinSeam? (left right : Node α) : Option (List (Node α)) :=
  joinWithin? (max left.height right.height) left right

/-- Joins two trees below one root. -/
def join? (left right : Node α) : Option (Node α) :=
  if left.size == 0 then
    some right
  else if right.size == 0 then
    some left
  else do
    match ← joinSeam? left right with
    | [node] => return node.lowered
    | nodes => branch? nodes

/-- Joins any number of trees, from the left. -/
def joinAll? : List (Node α) → Option (Node α)
  | [] => some empty
  | first :: rest => rest.foldlM join? first

end PersistentCollections.Sequence.Node
