/-
Red-black trees: the search trees below a sorted map.

Every node is red or black. In a tree as the edits keep it the root is
black, no red node has a red child, and every way from the root to a
missing child passes equally many black nodes; so no way is more than
twice as long as another.

This module holds the type, the search, and the insertion. Insertion
adds a red node at the bottom, and a black node above it repairs two
red ones in a row (`balance`).
-/

namespace PersistentCollections.SortedMap

/-- The color of a node. -/
inductive Color where
  | red
  | black
deriving DecidableEq, Repr

/-- A search tree of entries. -/
inductive Tree (κ ν : Type) where
  /-- The tree without entries. -/
  | leaf
  /-- An entry with the entries before it and those after it. -/
  | node (color : Color) (before : Tree κ ν) (entry : κ × ν)
    (after : Tree κ ν)

namespace Tree

open Color

variable {κ ν : Type}

/-- Whether the tree has no entries. -/
def isLeaf : Tree κ ν → Bool
  | leaf => true
  | _ => false

/-- Whether the root is a black node. -/
def isBlack : Tree κ ν → Bool
  | node black _ _ _ => true
  | _ => false

/-- The tree with a root that is not red. -/
def blackened : Tree κ ν → Tree κ ν
  | node red a x b => node black a x b
  | tree => tree

-- ========================================================= searching

/-- The first entry. -/
def min? : Tree κ ν → Option (κ × ν)
  | leaf => none
  | node _ leaf x _ => some x
  | node _ before _ _ => before.min?

/-- The last entry. -/
def max? : Tree κ ν → Option (κ × ν)
  | leaf => none
  | node _ _ x leaf => some x
  | node _ _ _ after => after.max?

/-- The entry that `cmp` takes for the same as `key`. -/
def find? (cmp : κ → κ → Ordering) (key : κ) :
    Tree κ ν → Option (κ × ν)
  | leaf => none
  | node _ before x after =>
    match cmp key x.1 with
    | .lt => before.find? cmp key
    | .gt => after.find? cmp key
    | .eq => some x

-- ========================================================= insertion

/-- A black node over two subtrees of which one may have a red root
with a red child; such a pair is pulled apart below a red node. -/
def balance : Tree κ ν → κ × ν → Tree κ ν → Tree κ ν
  | node red a x b, y, node red c z d =>
    node red (node black a x b) y (node black c z d)
  | node red (node red a x b) y c, z, d =>
    node red (node black a x b) y (node black c z d)
  | node red a x (node red b y c), z, d =>
    node red (node black a x b) y (node black c z d)
  | a, x, node red b y (node red c z d) =>
    node red (node black a x b) y (node black c z d)
  | a, x, node red (node red b y c) z d =>
    node red (node black a x b) y (node black c z d)
  | a, x, b => node black a x b

/-- A node of the given color, balanced if it is black. -/
def rebuild (color : Color) (before : Tree κ ν) (x : κ × ν)
    (after : Tree κ ν) : Tree κ ν :=
  match color with
  | black => balance before x after
  | red => node red before x after

/-- The tree with a value under a key, and whether there was no entry
for it. The key that is stored stays. -/
def insert (cmp : κ → κ → Ordering) (key : κ) (value : ν) :
    Tree κ ν → Tree κ ν × Bool
  | leaf => (node red leaf (key, value) leaf, true)
  | node color before x after =>
    match cmp key x.1 with
    | .lt =>
      let (before, added) := before.insert cmp key value
      (rebuild color before x after, added)
    | .gt =>
      let (after, added) := after.insert cmp key value
      (rebuild color before x after, added)
    | .eq => (node color before (x.1, value) after, false)

end Tree

end PersistentCollections.SortedMap
