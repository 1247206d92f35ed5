/-
The sorted maps that edits and slices build are red-black trees.

A way leads from the root to a missing child; its colors are read off
from the root on (`Tree.ways`). In a red-black tree the root is black,
no red node has a red child, and all ways have equally many black nodes.
So the height stays within twice the binary logarithm of the size. Every
map that edits build has such a tree, and none of the edits meets any
other.
-/
import PersistentCollections.Proofs.SortedMap.Content

namespace PersistentCollections

namespace SortedMap

variable {κ ν : Type}

-- ================================================================== ways

namespace Tree

variable {c : Color} {n : Nat} {tree : Tree κ ν}

/-- The colors on each way from the root to a missing child. -/
def ways : Tree κ ν → List (List Color)
  | leaf => [[]]
  | node color before _ after =>
    (before.ways ++ after.ways).map (color :: ·)

/-- The number of nodes on the longest way. -/
def height : Tree κ ν → Nat
  | leaf => 0
  | node _ before _ after => max before.height after.height + 1

/-- Whether the root is black or missing. -/
def BlackRoot (tree : Tree κ ν) : Prop :=
  tree.isLeaf = true ∨ tree.isBlack = true

/-- Whether the children of red nodes are black or missing. -/
def NoRedPair : Tree κ ν → Prop
  | leaf => True
  | node color before _ after =>
    (color = .red → before.BlackRoot ∧ after.BlackRoot)
      ∧ before.NoRedPair ∧ after.NoRedPair

/-- The shape of a red-black tree. -/
structure RedBlack (tree : Tree κ ν) : Prop where
  root : tree.BlackRoot
  red : tree.NoRedPair
  black : ∀ way ∈ tree.ways, ∀ other ∈ tree.ways,
    way.count .black = other.count .black

theorem count_ways (h : Balanced c n tree) :
    ∀ way ∈ tree.ways, way.count .black = n := by
  induction h with
  | leaf => simp [ways]
  | red _ _ iha ihb =>
      intro way hway
      simp only [ways, List.mem_map, List.mem_append] at hway
      obtain ⟨rest, hrest, rfl⟩ := hway
      cases hrest with
      | inl hrest => simp [iha rest hrest]
      | inr hrest => simp [ihb rest hrest]
  | black _ _ iha ihb =>
      intro way hway
      simp only [ways, List.mem_map, List.mem_append] at hway
      obtain ⟨rest, hrest, rfl⟩ := hway
      cases hrest with
      | inl hrest => simp [iha rest hrest]
      | inr hrest => simp [ihb rest hrest]

theorem blackRoot (h : Balanced .black n tree) : tree.BlackRoot := by
  cases h with
  | leaf => exact .inl rfl
  | black => exact .inr rfl

theorem noRedPair (h : Balanced c n tree) : tree.NoRedPair := by
  induction h with
  | leaf => trivial
  | red ha hb iha ihb => exact ⟨fun _ => ⟨blackRoot ha, blackRoot hb⟩, iha, ihb⟩
  | black _ _ iha ihb => exact ⟨nofun, iha, ihb⟩

theorem balanced_redBlack (h : Balanced .black n tree) : RedBlack tree where
  root := blackRoot h
  red := noRedPair h
  black := fun way hway other hother =>
    (count_ways h way hway).trans (count_ways h other hother).symm

/-- No way has more red nodes than black ones, but for a red root. -/
theorem height_le (h : Balanced c n tree) :
    tree.height ≤ 2 * n + 1 ∧ (c = .black → tree.height ≤ 2 * n) := by
  induction h with
  | leaf => simp [height]
  | red _ _ iha ihb =>
      have ha := iha.2 rfl
      have hb := ihb.2 rfl
      refine ⟨?_, nofun⟩
      rw [height]
      omega
  | black _ _ iha ihb =>
      have ha := iha.1
      have hb := ihb.1
      rw [height]
      omega

/-- A tree is full down to the last of its black nodes. -/
theorem two_pow_le (h : Balanced c n tree) :
    1 <<< n ≤ tree.entries.length + 1 := by
  induction h with
  | leaf => exact Nat.le_refl _
  | red _ _ iha ihb =>
      rw [entries_node, List.length_append, List.length_cons]
      omega
  | black _ _ iha ihb =>
      rw [entries_node, List.length_append, List.length_cons,
        Nat.shiftLeft_succ]
      omega

end Tree

-- ============================================================= reachable

variable {cmp : κ → κ → Ordering}

/-- The sorted maps that edits and slices build. -/
inductive Reachable [BEq ν] : SortedMap κ ν cmp → Prop where
  | empty : Reachable empty
  | singleton (stamp : Stamp) (key : κ) (value : ν) :
      Reachable (singleton stamp key value)
  | ofList (stamp : Stamp) (entries : List (κ × ν)) :
      Reachable (ofList stamp entries)
  | ofListing (stamp : Stamp) (listing : Listing (κ × ν)) :
      Reachable (ofListing stamp listing)
  | insert {map : SortedMap κ ν cmp} (stamp : Stamp) (key : κ)
      (value : ν) : Reachable map → Reachable (map.insert stamp key value)
  | erase {map rest : SortedMap κ ν cmp} {stamp : Stamp} {key : κ} :
      Reachable map → map.erase stamp key = .ok rest → Reachable rest
  | merge {left right : SortedMap κ ν cmp} (stamp : Stamp) :
      Reachable left → Reachable right → Reachable (left.merge stamp right)
  | segment {map : SortedMap κ ν cmp} (stamp : Stamp) (first stop : κ) :
      Reachable map → Reachable (map.segment stamp first stop)
  | dropBefore {map : SortedMap κ ν cmp} (stamp : Stamp) (first : κ) :
      Reachable map → Reachable (map.dropBefore stamp first)
  | takeBefore {map : SortedMap κ ν cmp} (stamp : Stamp) (stop : κ) :
      Reachable map → Reachable (map.takeBefore stamp stop)

variable [BEq ν]

/-- The size counts the entries, whatever the comparison answers. -/
theorem Reachable.counted {map : SortedMap κ ν cmp} (h : Reachable map) :
    Counted map := by
  induction h with
  | empty => exact rfl
  | singleton => exact rfl
  | ofList stamp entries => exact counted_ofList stamp entries
  | ofListing stamp listing => exact counted_ofList stamp listing.items
  | insert stamp key value _ ih => exact counted_insert ih stamp key value
  | erase _ herase ih => exact counted_erase ih herase
  | merge stamp _ _ ihl _ => exact counted_merge ihl stamp _
  | segment stamp first stop _ ih => exact counted_segment ih stamp first stop
  | dropBefore stamp first _ ih => exact counted_dropBefore ih stamp first
  | takeBefore stamp stop _ ih => exact counted_takeBefore ih stamp stop

variable [Std.TransCmp cmp]

theorem Reachable.sound {map : SortedMap κ ν cmp} (h : Reachable map) :
    Sound map := by
  induction h with
  | empty => exact sound_empty
  | singleton => exact sound_singleton
  | ofList stamp entries => exact (ofList_spec stamp entries).1
  | ofListing stamp listing => exact (ofList_spec stamp listing.items).1
  | insert stamp key value _ ih => exact (insert_spec ih stamp key value).1
  | @erase map rest stamp key _ herase ih =>
      obtain ⟨other, hok, hsound, -⟩ := erase_spec ih stamp key
      rw [herase] at hok
      cases hok
      exact hsound
  | merge stamp _ _ ihl ihr => exact (merge_spec ihl stamp ihr).1
  | segment stamp first stop _ ih =>
      exact (segment_spec ih stamp first stop).1
  | dropBefore stamp first _ ih => exact (dropBefore_spec ih stamp first).1
  | takeBefore stamp stop _ ih => exact (takeBefore_spec ih stamp stop).1

/-- Every map that edits and slices build is a red-black tree in order
that its size counts, and a key can be erased from it. -/
theorem Reachable.redBlack {map : SortedMap κ ν cmp} (h : Reachable map) :
    map.tree.RedBlack
      ∧ Ordered cmp map.tree.entries
      ∧ map.size = map.tree.entries.length
      ∧ map.tree.height ≤ 2 * (map.size + 1).log2
      ∧ ∀ stamp key, ∃ rest, map.erase stamp key = .ok rest := by
  have hsound := h.sound
  obtain ⟨n, hbalanced⟩ := hsound.balanced
  refine ⟨Tree.balanced_redBlack hbalanced, hsound.ordered, hsound.size_eq, ?_, ?_⟩
  · have hheight := (Tree.height_le hbalanced).2 rfl
    have hfull : 2 ^ n ≤ map.size + 1 := by
      rw [hsound.size_eq, ← Nat.one_shiftLeft]
      exact Tree.two_pow_le hbalanced
    have hne : map.size + 1 ≠ 0 := Nat.succ_ne_zero _
    have hlog := (Nat.le_log2 hne).mpr hfull
    omega
  · intro stamp key
    obtain ⟨rest, hrest, -, -⟩ := erase_spec hsound stamp key
    exact ⟨rest, hrest⟩

/-- Five entries, of which one is taken out again. -/
theorem redBlack_five :
    ∃ map rest : SortedMap Nat Nat compare,
      map = ofList 0 [(4, 0), (2, 1), (5, 2), (1, 3), (3, 4)]
        ∧ map.erase 1 2 = .ok rest
        ∧ rest.tree.entries = [(1, 3), (3, 4), (4, 0), (5, 2)]
        ∧ rest.tree.RedBlack ∧ rest.tree.height ≤ 4 := by
  refine ⟨_, ⟨_, 4, 1⟩, rfl, rfl, rfl, ?_⟩
  obtain ⟨hshape, -, -, hheight, -⟩ := Reachable.redBlack
    (@Reachable.erase Nat Nat compare _
      (ofList 0 [(4, 0), (2, 1), (5, 2), (1, 3), (3, 4)]) ⟨_, 4, 1⟩ 1 2
      (.ofList 0 _) rfl)
  exact ⟨hshape, hheight⟩

end SortedMap

end PersistentCollections
