/-
The levels of a tree that is built of sorted entries.

The nodes at one depth make a level. Above the red depth the halves of
the entries never run out, so every level there has twice the nodes of
the one above it, all of them black; the entries that are left make the
last level, which is red unless it is the root alone. The levels say how
high the tree is (`level_eq_nil`).

The same tree comes about when no list is cut: its entries are drawn
from a supply one by one, those of a left subtree first, then the root
above it, and then those of the right subtree (`draw`). The supply lasts
for every draw, and nothing is drawn that is not needed.
-/
import Mathlib.Algebra.Group.Nat.Defs
import PersistentCollections.Proofs.SortedMap.Reachable

namespace PersistentCollections

namespace SortedMap

variable {κ ν : Type}

namespace Tree

open Color

variable {color : Color} {deepest count depth : Nat} {tree a b : Tree κ ν}
  {x : κ × ν}

-- ================================================================ levels

/-- The colors of the nodes at a depth, from left to right. -/
def level : Nat → Tree κ ν → List Color
  | _, leaf => []
  | 0, node color _ _ _ => [color]
  | depth + 1, node _ before _ after =>
    before.level depth ++ after.level depth

@[simp] theorem level_leaf (depth : Nat) :
    (leaf : Tree κ ν).level depth = [] := by
  cases depth <;> rfl

@[simp] theorem level_zero : (node color a x b).level 0 = [color] := rfl

@[simp] theorem level_succ (depth : Nat) :
    (node color a x b).level (depth + 1) = a.level depth ++ b.level depth :=
  rfl

/-- The height is the first depth without nodes. -/
theorem level_eq_nil : tree.level depth = [] ↔ tree.height ≤ depth := by
  induction tree generalizing depth with
  | leaf => simp [height]
  | node color before x after ihb iha =>
      cases depth with
      | zero => simp [height]
      | succ depth =>
          rw [level_succ, List.append_eq_nil_iff, ihb, iha, height]
          omega

/-- All levels above the deepest one are full and black; the deepest one
has the rest of `count` nodes, all of one color. -/
structure Filled (deepest : Nat) (color : Color) (count : Nat)
    (tree : Tree κ ν) : Prop where
  above : ∀ depth < deepest,
    tree.level depth = List.replicate (2 ^ depth) black
  last : tree.level deepest
    = List.replicate (count + 1 - 2 ^ deepest) color
  below : ∀ depth, deepest < depth → tree.level depth = []

theorem filled_leaf : Filled 0 color 0 (leaf : Tree κ ν) where
  above := nofun
  last := rfl
  below := fun depth _ => level_leaf depth

theorem filled_one : Filled 0 color 1 (node color leaf x leaf) where
  above := nofun
  last := rfl
  below := by
    intro depth hdepth
    cases depth with
    | zero => exact absurd hdepth (Nat.lt_irrefl 0)
    | succ depth => simp

/-- A black node over two trees that are filled down to the same level. -/
theorem Filled.black_node {m n : Nat} (x : κ × ν) (hm : 2 ^ deepest ≤ m + 1)
    (hn : 2 ^ deepest ≤ n + 1) (ha : Filled deepest color m a)
    (hb : Filled deepest color n b) :
    Filled (deepest + 1) color (m + n + 1) (node black a x b) where
  above := by
    intro depth hdepth
    cases depth with
    | zero => rfl
    | succ depth =>
        have habove : depth < deepest := Nat.lt_of_succ_lt_succ hdepth
        rw [level_succ, ha.above depth habove, hb.above depth habove,
          List.replicate_append_replicate, Nat.pow_succ, Nat.mul_two]
  last := by
    rw [level_succ, ha.last, hb.last, List.replicate_append_replicate,
      Nat.pow_succ]
    congr 1
    omega
  below := by
    intro depth hdepth
    cases depth with
    | zero => exact absurd hdepth (Nat.not_lt_zero _)
    | succ depth =>
        have hbelow : deepest < depth := Nat.lt_of_succ_lt_succ hdepth
        rw [level_succ, ha.below depth hbelow, hb.below depth hbelow,
          List.append_nil]

/-- Red nodes stand nowhere but on the deepest level. -/
theorem Filled.red_mem (h : Filled deepest color count tree)
    (hred : red ∈ tree.level depth) : depth = deepest ∧ color = red := by
  rcases Nat.lt_trichotomy depth deepest with hlt | rfl | hgt
  · rw [h.above depth hlt] at hred
    cases List.eq_of_mem_replicate hred
  · rw [h.last] at hred
    exact ⟨rfl, (List.eq_of_mem_replicate hred).symm⟩
  · rw [h.below depth hgt] at hred
    cases hred

/-- A tree with nodes on its deepest level is as high as that says. -/
theorem Filled.height_eq (h : Filled deepest color count tree)
    (hcount : 2 ^ deepest ≤ count) : tree.height = deepest + 1 := by
  have hlow := level_eq_nil.mp (h.below (deepest + 1) (Nat.lt_succ_self _))
  have hhigh : ¬ tree.height ≤ deepest := by
    rw [← level_eq_nil, h.last, List.replicate_eq_nil_iff]
    omega
  omega

-- ========================================================= built of halves

/-- A tree that is built `deepest` levels above the red depth is filled
down to it. -/
theorem filled_build {redDepth : Nat} (entries : List (κ × ν))
    (hdepth : depth + deepest = redDepth)
    (hleast : 1 <<< deepest ≤ entries.length + 1)
    (hmost : entries.length < 1 <<< (deepest + 1)) :
    Filled deepest (if 0 < redDepth then red else black) entries.length
      (build redDepth depth entries) := by
  refine build_induction
    (motive := fun k n t => Filled k (if 0 < redDepth then red else black) n t)
    filled_leaf (fun x => filled_one) ?more deepest depth entries hdepth
    hleast hmost
  case more =>
      intro k m n a b x _ hm hn ha hb
      rw [Nat.one_shiftLeft] at hm hn
      exact Filled.black_node x hm hn ha hb

/-- The root of a tree that is built is black already. -/
theorem blackened_build (redDepth : Nat) (entries : List (κ × ν)) :
    blackened (build redDepth 0 entries) = build redDepth 0 entries := by
  rcases build_eq redDepth 0 entries with
    ⟨-, hbuild⟩ | ⟨before, x, after, -, -, hbuild⟩
  · rw [hbuild]
    rfl
  · rw [hbuild, if_neg (by omega)]
    rfl

/-- Sorted entries fill all levels but the deepest one, which is red
unless it is that of the root. -/
theorem filled_ofSorted (entries : List (κ × ν)) :
    Filled entries.length.log2 (if 1 < entries.length then red else black)
      entries.length (ofSorted entries) := by
  obtain ⟨hleast, hmost⟩ := log2_bounds entries.length
  have hbuild := filled_build entries (Nat.zero_add entries.length.log2)
    hleast hmost
  have hpos : 0 < entries.length.log2 ↔ 1 < entries.length := by
    rcases Nat.eq_zero_or_pos entries.length with hzero | hlen
    · rw [hzero]
      decide
    · exact Nat.le_log2 (Nat.ne_of_gt hlen)
  rw [ofSorted, blackened_build]
  simpa only [hpos] using hbuild

-- ===================================================== drawn from a supply

/-- The tree of `count` entries that are drawn from a supply, and what is
left of it. A supply that ends before the root of a tree leaves that
tree without entries. -/
def draw (redDepth count depth : Nat) (supply : List (κ × ν)) :
    Tree κ ν × List (κ × ν) :=
  if _some : 0 < count then
    let (before, supply) := draw redDepth (count / 2) (depth + 1) supply
    match supply with
    | [] => (leaf, [])
    | x :: supply =>
      let (after, supply) :=
        draw redDepth (count - count / 2 - 1) (depth + 1) supply
      (node (if depth = redDepth ∧ 0 < depth then red else black)
        before x after, supply)
  else
    (leaf, supply)
termination_by count

/-- As long as the supply lasts, drawing makes the tree of the entries
that it takes. -/
theorem draw_eq (redDepth depth : Nat) (entries more : List (κ × ν)) :
    draw redDepth entries.length depth (entries ++ more)
      = (build redDepth depth entries, more) := by
  rcases build_eq redDepth depth entries with
    ⟨rfl, hbuild⟩ | ⟨before, x, after, hsplit, hlen, hbuild⟩
  · rw [draw, hbuild]
    rfl
  · have htotal := congrArg List.length hsplit
    rw [List.length_append, List.length_cons] at htotal
    have hafter : entries.length - entries.length / 2 - 1 = after.length := by
      omega
    have hleft := draw_eq redDepth (depth + 1) before (x :: (after ++ more))
    have hright := draw_eq redDepth (depth + 1) after more
    rw [draw, dif_pos (by omega), hafter, ← hlen, hbuild]
    -- the supply is cut at the root, and the number to draw stays
    conv => lhs; rw [hsplit, List.append_assoc, List.cons_append]
    simp only [hleft, hright]
termination_by entries.length
decreasing_by
  all_goals
    rw [hsplit, List.length_append, List.length_cons]
    omega

end Tree

-- ======================================================== the map of them

variable {cmp : κ → κ → Ordering}

/-- A map made of sorted entries. -/
structure EvenlyBuilt (entries : List (κ × ν)) (map : SortedMap κ ν cmp) :
    Prop where
  /-- It counts the entries -/
  size : map.size = entries.length
  /-- and has them in their order, -/
  inOrder : map.tree.entries = entries ∧ map.toList = entries
  /-- which is that of the comparison. -/
  ordered : Ordered cmp map.tree.entries
  /-- It is a red-black tree -/
  redBlack : map.tree.RedBlack
  /-- whose height is the logarithm of their number, and one more, -/
  height : entries ≠ [] → map.tree.height = entries.length.log2 + 1
  /-- with full levels of black nodes, and the rest at the bottom, -/
  filled : map.tree.Filled entries.length.log2
    (if 1 < entries.length then .red else .black) entries.length
  /-- where alone nodes are red; not even there if the entry is one. -/
  red : ∀ depth, Color.red ∈ map.tree.level depth →
    depth + 1 = map.tree.height ∧ 1 < entries.length
  /-- Drawing the entries one by one makes the same tree, and leaves what
  comes after them. -/
  drawn : ∀ more, ∃ tree,
    Tree.draw entries.length.log2 entries.length 0 (entries ++ more)
        = (tree, more)
      ∧ tree.blackened = map.tree

/-- Entries in strict order, however many, make a map of all of them
whose tree is red-black and has full levels, red only at the bottom. -/
theorem ofSorted_fills_levels (stamp : Stamp) {entries : List (κ × ν)}
    (h : Ordered cmp entries) :
    EvenlyBuilt entries (ofSorted stamp entries : SortedMap κ ν cmp) := by
  have hsound : Sound (ofSorted stamp entries : SortedMap κ ν cmp) :=
    sound_ofSorted h
  have hentries := Tree.entries_ofSorted entries
  have hfilled := Tree.filled_ofSorted entries
  have hheight : entries ≠ [] →
      (Tree.ofSorted entries).height = entries.length.log2 + 1 := by
    intro hne
    have hlen : entries.length ≠ 0 := by simpa using hne
    exact hfilled.height_eq (Nat.log2_self_le hlen)
  constructor
  case size => rfl
  case inOrder => exact ⟨hentries, (toList_eq hsound).trans hentries⟩
  case ordered => exact hsound.ordered
  case redBlack =>
      obtain ⟨n, hbalanced⟩ := hsound.balanced
      exact Tree.balanced_redBlack hbalanced
  case height => exact hheight
  case filled => exact hfilled
  case red =>
      intro depth hred
      obtain ⟨rfl, hcolor⟩ := hfilled.red_mem hred
      have hmany : 1 < entries.length := by
        by_contra hfew
        rw [if_neg hfew] at hcolor
        cases hcolor
      refine ⟨(hheight ?_).symm, hmany⟩
      rintro rfl
      cases hmany
  case drawn => exact fun more => ⟨_, Tree.draw_eq _ 0 entries more, rfl⟩

/-- Five entries in the order of the last digit alone: two levels are
full and black, and the two entries left are red. A supply of seven
keeps the last two. -/
theorem ofSorted_fills_levels_mod :
    let entries := [(31, 0), (2, 1), (14, 2), (5, 3), (8, 4)]
    ∃ map : SortedMap Nat Nat (compareOn (· % 10)),
      map = ofSorted 0 entries ∧ map.size = 5 ∧ map.toList = entries
        ∧ map.tree.RedBlack ∧ map.tree.height = 3
        ∧ map.tree.level 1 = [.black, .black]
        ∧ map.tree.level 2 = [.red, .red]
        ∧ ∃ tree, Tree.draw 2 5 0 (entries ++ [(6, 5), (7, 6)])
              = (tree, [(6, 5), (7, 6)])
            ∧ tree.blackened = map.tree := by
  intro entries
  have hordered : Ordered (compareOn (· % 10)) entries := by decide
  have hbuilt := ofSorted_fills_levels 0 hordered
  have hlog : entries.length.log2 = 2 := by decide
  have hheight := hbuilt.height (by decide)
  have hlast := hbuilt.filled.last
  have hdrawn := hbuilt.drawn [(6, 5), (7, 6)]
  rw [hlog] at hheight hlast hdrawn
  exact ⟨_, rfl, hbuilt.size, hbuilt.inOrder.2, hbuilt.redBlack, hheight,
    hbuilt.filled.above 1 (by decide), hlast, hdrawn⟩

end SortedMap

end PersistentCollections
