/-
Walking the entries of a trie.

A walk holds, for every node between the root and the place it has
reached, the slots still ahead there, the deepest node first. A step
drops the nodes that are used up, takes the next slot of the deepest
one left, and goes down to the first entry below it. So the entries
come in the order of the digits of their hashes, and those of one
bucket in the order of the bucket.

The nodes on the way never number more than 14, since a hash has 13
digits; there is room for 16, and a walk that would need more stops.
-/
import PersistentCollections.HashMap.Node

namespace PersistentCollections.HashMap

variable {κ ν : Type}

/-- The nodes that a walk has room for. -/
abbrev walkRoom : Nat := 16

/-- A walk over the entries of a trie. -/
structure Walk (κ ν : Type) where
  /-- The slots ahead in each node on the way, the deepest first. -/
  path : List (List (Slot κ ν))
  /-- The number of entries still to come. -/
  remaining : Nat

namespace Walk

/-- The walk over `count` entries below a node, or over none. -/
def start (root : Option (Node κ ν)) (count : Nat) : Walk κ ν :=
  ⟨root.toList.map Node.slots, count⟩

/-- The path without the nodes that are used up. -/
def dropUsed : List (List (Slot κ ν)) → List (List (Slot κ ν))
  | [] :: below => dropUsed below
  | path => path

/-- Goes down to the first entry of a slot, with room for so many more
nodes on the way. -/
def descend? : Nat → Slot κ ν → List (List (Slot κ ν)) →
    Option ((κ × ν) × List (List (Slot κ ν)))
  | _, .entry _ key value, path => some ((key, value), path)
  | 0, .node _, _ => none
  | room + 1, .node child, path =>
    match child.slots with
    | [] => none
    | slot :: rest => descend? room slot (rest :: path)

/-- Takes the next entry. -/
def next (walk : Walk κ ν) : Option (κ × ν) × Walk κ ν :=
  match dropUsed walk.path with
  | (slot :: rest) :: below =>
    match descend? (walkRoom - (below.length + 1)) slot (rest :: below)
    with
    | some (entry, path) => (some entry, ⟨path, walk.remaining - 1⟩)
    | none => (none, walk)
  | path => (none, { walk with path })

end Walk

end PersistentCollections.HashMap
