/-
Taking an entry out of a red-black tree.

The two subtrees of the entry are fused into one (`fuse?`). A subtree
that was black may come back with one black node less on every way; its
parent makes up for that with the help of its other child
(`lendLeft?`, `lendRight?`). These two answer `none` where no child can
help, which does not happen in a tree whose ways are balanced.
-/
import PersistentCollections.SortedMap.Tree

namespace PersistentCollections.SortedMap.Tree

open Color

variable {κ ν : Type}

/-- The tree with a red root in place of a black one. -/
def reddened? : Tree κ ν → Option (Tree κ ν)
  | node black a x b => some (node red a x b)
  | _ => none

/-- A node whose left subtree is one black node short. -/
def lendLeft? :
    Tree κ ν → κ × ν → Tree κ ν → Option (Tree κ ν)
  | node red a x b, y, c => some (node red (node black a x b) y c)
  | a, x, node black b y c => some (balance a x (node red b y c))
  | a, x, node red (node black b y c) z d => do
    return node red (node black a x b) y (balance c z (← reddened? d))
  | _, _, _ => none

/-- A node whose right subtree is one black node short. -/
def lendRight? :
    Tree κ ν → κ × ν → Tree κ ν → Option (Tree κ ν)
  | a, x, node red b y c => some (node red a x (node black b y c))
  | node black a x b, y, c => some (balance (node red a x b) y c)
  | node red a x (node black b y c), z, d => do
    return node red (balance (← reddened? a) x b) y (node black c z d)
  | _, _, _ => none

/-- A node of the given color before a tree, with `below` to fuse its
right subtree with a tree. -/
def fuseNode? (color : Color) (a : Tree κ ν) (x : κ × ν) (b : Tree κ ν)
    (below : Tree κ ν → Option (Tree κ ν)) :
    Tree κ ν → Option (Tree κ ν)
  | leaf => some (node color a x b)
  | right@(node other c y d) =>
    match color, other with
    | red, red => do
      match ← below c with
      | node red m z n =>
        return node red (node red a x m) z (node red n y d)
      | middle => return node red a x (node red middle y d)
    | black, black => do
      match ← below c with
      | node red m z n =>
        return node red (node black a x m) z (node black n y d)
      | middle => lendLeft? a x (node black middle y d)
    | black, red => do
      return node red (← fuseNode? color a x b below c) y d
    | red, black => do
      return node red a x (← below right)

/-- The entries of `left` followed by those of `right`. -/
def fuse? : Tree κ ν → Tree κ ν → Option (Tree κ ν)
  | leaf, right => some right
  | node color a x b, right => fuseNode? color a x b (fuse? b) right

/-- The tree without the entry of a key. -/
def erase? (cmp : κ → κ → Ordering) (key : κ) :
    Tree κ ν → Option (Tree κ ν)
  | leaf => some leaf
  | node _ before x after =>
    match cmp key x.1 with
    | .lt => do
      let rest ← before.erase? cmp key
      if before.isBlack then
        lendLeft? rest x after
      else
        return node red rest x after
    | .gt => do
      let rest ← after.erase? cmp key
      if after.isBlack then
        lendRight? before x rest
      else
        return node red before x rest
    | .eq => fuse? before after

end PersistentCollections.SortedMap.Tree
