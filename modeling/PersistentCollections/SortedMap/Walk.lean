/-
Walking the entries of a tree from both ends.

Each end keeps the entries it has to come back to: the way down to the
place it has reached, nearest first, each entry with the subtree beyond
it. Taking an entry goes down into that subtree, along its near side.
-/
import PersistentCollections.SortedMap.Tree

namespace PersistentCollections.SortedMap

variable {κ ν : Type}

/-- Entries to come back to, each with the subtree beyond it. -/
abbrev Trail (κ ν : Type) := List ((κ × ν) × Tree κ ν)

namespace Trail

/-- The way to the first entry of a tree, on top of a trail. -/
def toFirst : Tree κ ν → Trail κ ν → Trail κ ν
  | .leaf, trail => trail
  | .node _ before x after, trail => toFirst before ((x, after) :: trail)

/-- The way to the last entry of a tree, on top of a trail. -/
def toLast : Tree κ ν → Trail κ ν → Trail κ ν
  | .leaf, trail => trail
  | .node _ before x after, trail => toLast after ((x, before) :: trail)

/-- Takes the nearest entry and moves on to the one after it. -/
def advance? : Trail κ ν → Option ((κ × ν) × Trail κ ν)
  | [] => none
  | (x, after) :: trail => some (x, toFirst after trail)

/-- Takes the nearest entry and moves on to the one before it. -/
def retreat? : Trail κ ν → Option ((κ × ν) × Trail κ ν)
  | [] => none
  | (x, before) :: trail => some (x, toLast before trail)

end Trail

/-- A walk over the entries from both ends. -/
structure Walk (κ ν : Type) where
  /-- The trail of the front end. -/
  front : Trail κ ν
  /-- The trail of the back end. -/
  back : Trail κ ν
  /-- The number of entries still to come. -/
  remaining : Nat

namespace Walk

/-- The walk over a tree of `count` entries. -/
def start (tree : Tree κ ν) (count : Nat) : Walk κ ν :=
  ⟨Trail.toFirst tree [], Trail.toLast tree [], count⟩

/-- Takes the first entry still to come. -/
def next (walk : Walk κ ν) : Option (κ × ν) × Walk κ ν :=
  match walk.remaining, walk.front.advance? with
  | left + 1, some (entry, front) =>
    (some entry, { walk with front, remaining := left })
  | _, _ => (none, walk)

/-- Takes the last entry still to come. -/
def nextBack (walk : Walk κ ν) : Option (κ × ν) × Walk κ ν :=
  match walk.remaining, walk.back.retreat? with
  | left + 1, some (entry, back) =>
    (some entry, { walk with back, remaining := left })
  | _, _ => (none, walk)

end Walk

end PersistentCollections.SortedMap
