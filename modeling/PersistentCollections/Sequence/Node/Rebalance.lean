/-
Evening out the nodes of one level.

Nodes of at least 22 slots are kept as they are, and so shared with the
trees they came from. Smaller ones are poured together, one after
another, until a run of at least 22 has gathered; what is left over at
the end goes to the node before it. So every node that comes out has at
least 22 slots unless it is the only one, and at most 44.
-/
import PersistentCollections.Sequence.Node

namespace PersistentCollections.Sequence.Node

variable {α β : Type}

/-- How the nodes of a level are taken apart into slots and put
together again: leaves by their elements, branches by their children. -/
structure Slots (α β : Type) where
  /-- The slots of a node of this level. -/
  taken? : Node α → Option (List β)
  /-- The node over some slots. -/
  built? : List β → Option (Node α)

/-- Leaves, slot by slot. -/
def elementSlots : Slots α α where
  taken?
    | leaf values => some values
    | _ => none
  built? values := some (leaf values)

/-- Branches, slot by slot. -/
def childSlots : Slots α (Node α) where
  taken?
    | leaf _ => none
    | node => some node.children
  built? := branch?

namespace Slots

/-- The node over `run`, or two nodes over its halves if it is too
long for one. -/
def nodes? (level : Slots α β) (run : List β) :
    Option (List (Node α)) :=
  if mostWidth < run.length then do
    let (left, right) := Run.halves run
    return [← level.built? left, ← level.built? right]
  else
    return [← level.built? run]

/-- Pours the nodes together from the left, with `pending` slots not
yet in a node; the slots left over at the end come out apart. -/
def gather? (level : Slots α β) :
    List β → List (Node α) → Option (List (Node α) × List β)
  | pending, [] => some ([], pending)
  | pending, node :: nodes => do
    let own ← level.taken? node
    if pending.isEmpty && leastWidth ≤ own.length then
      let (balanced, left) ← gather? level [] nodes
      return (node :: balanced, left)
    else
      let run := pending ++ own
      if leastWidth ≤ run.length then
        let emitted ← level.nodes? run
        let (balanced, left) ← gather? level [] nodes
        return (emitted ++ balanced, left)
      else
        gather? level run nodes

/-- The nodes of one level, poured together where they are small. -/
def pour? (level : Slots α β) (nodes : List (Node α)) :
    Option (List (Node α)) := do
  let (balanced, left) ← level.gather? [] nodes
  if left.isEmpty then
    return balanced
  else
    match balanced.getLast? with
    | none => return [← level.built? left]
    | some last =>
      let emitted ← level.nodes? ((← level.taken? last) ++ left)
      return balanced.dropLast ++ emitted

end Slots

/-- Merges the undersized nodes of one level into their neighbours. -/
def evenOut? : List (Node α) → Option (List (Node α))
  | [] => some []
  | [node] => some [node]
  | nodes@(leaf _ :: _) => elementSlots.pour? nodes
  | nodes => childSlots.pour? nodes

end PersistentCollections.Sequence.Node
