/-
The red-black tree of entries that are in order already.

The entry in the middle becomes the root, and both halves are built the
same way. All levels but the deepest are full; they are black, and the
nodes of the deepest level are red. A single entry stays black.
-/
import PersistentCollections.SortedMap.Tree

namespace PersistentCollections.SortedMap.Tree

variable {κ ν : Type}

/-- The tree of some entries at a depth, with red nodes at one depth. -/
def build (redDepth depth : Nat) (entries : List (κ × ν)) :
    Tree κ ν :=
  let middle := entries.length / 2
  match _found : entries.drop middle with
  | [] => leaf
  | x :: rest =>
    node (if depth = redDepth ∧ 0 < depth then .red else .black)
      (build redDepth (depth + 1) (entries.take middle)) x
      (build redDepth (depth + 1) rest)
termination_by entries.length
decreasing_by
  all_goals
    have cut := congrArg List.length _found
    simp only [List.length_drop, List.length_cons, List.length_take]
      at cut ⊢
    omega

/-- The tree of entries in order. -/
def ofSorted (entries : List (κ × ν)) : Tree κ ν :=
  blackened (build entries.length.log2 0 entries)

end PersistentCollections.SortedMap.Tree
