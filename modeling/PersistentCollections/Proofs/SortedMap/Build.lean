/-
The tree built from sorted entries holds them in order, and is balanced.

The entries below a node at a depth are split in half again and again,
so `k` levels above the red one there are at least `2 ^ k - 1` of them
and less than `2 ^ (k + 1)`: every level above the red one is full, and
the red one is the last (`build_induction`).
-/
import PersistentCollections.Proofs.SortedMap.Shape
import PersistentCollections.SortedMap.Tree.Build

namespace PersistentCollections.SortedMap.Tree

open Color

variable {κ ν : Type} {entries : List (κ × ν)} {redDepth depth : Nat}

/-- A tree of no entries is empty; any other has the middle entry at its
root. -/
theorem build_eq (redDepth depth : Nat) (entries : List (κ × ν)) :
    entries = [] ∧ build redDepth depth entries = leaf
      ∨ ∃ before x after,
          entries = before ++ x :: after
            ∧ before.length = entries.length / 2
            ∧ build redDepth depth entries
              = node (if depth = redDepth ∧ 0 < depth then red else black)
                  (build redDepth (depth + 1) before) x
                  (build redDepth (depth + 1) after) := by
  have hwhole := List.take_append_drop (entries.length / 2) entries
  rw [build]
  split
  case h_1 hdrop =>
      have hlen := congrArg List.length hdrop
      rw [List.length_drop, List.length_nil] at hlen
      refine .inl ⟨List.eq_nil_of_length_eq_zero (by omega), rfl⟩
  case h_2 x after hdrop =>
      refine .inr ⟨_, x, after, ?_, ?_, rfl⟩
      · rw [← hdrop, hwhole]
      · rw [List.length_take]
        omega

theorem build_nil : build redDepth depth [] = (leaf : Tree κ ν) := by
  rcases build_eq redDepth depth ([] : List (κ × ν)) with
    ⟨-, hbuild⟩ | ⟨before, x, after, hsplit, -, -⟩
  · exact hbuild
  · simp at hsplit

theorem build_one (depth : Nat) (x : κ × ν) :
    build redDepth depth [x]
      = node (if depth = redDepth ∧ 0 < depth then red else black)
          leaf x leaf := by
  rcases build_eq redDepth depth [x] with
    ⟨hnil, -⟩ | ⟨before, y, after, hsplit, hlen, hbuild⟩
  · cases hnil
  · have hbefore : before = [] :=
      List.eq_nil_of_length_eq_zero (by simpa using hlen)
    rw [hbefore, List.nil_append] at hsplit
    obtain ⟨rfl, rfl⟩ := List.cons.inj hsplit
    rw [hbuild, hbefore, build_nil]

theorem entries_build (depth : Nat) (entries : List (κ × ν)) :
    (build redDepth depth entries).entries = entries := by
  rcases build_eq redDepth depth entries with
    ⟨rfl, hbuild⟩ | ⟨before, x, after, hsplit, -, hbuild⟩
  · rw [hbuild, entries_leaf]
  · have hbefore := entries_build (depth + 1) before
    have hafter := entries_build (depth + 1) after
    rw [hbuild, entries_node, hbefore, hafter, hsplit]
termination_by entries.length
decreasing_by
  all_goals
    rw [hsplit, List.length_append, List.length_cons]
    omega

/-- What holds of the trees of no and of one entry at the red depth, and
of a black node over two trees of which it holds a level further down,
holds of every tree that is built: of one `k` levels above the red depth
whose entries fill these levels, and the red one at most. -/
theorem build_induction {motive : Nat → Nat → Tree κ ν → Prop}
    (empty : motive 0 0 leaf)
    (one : ∀ x, motive 0 1
      (node (if 0 < redDepth then red else black) leaf x leaf))
    (more : ∀ {k m n : Nat} {a b : Tree κ ν} (x : κ × ν), k < redDepth →
      1 <<< k ≤ m + 1 → 1 <<< k ≤ n + 1 → motive k m a → motive k n b →
      motive (k + 1) (m + n + 1) (node black a x b)) :
    ∀ (k depth : Nat) (entries : List (κ × ν)), depth + k = redDepth →
      1 <<< k ≤ entries.length + 1 → entries.length < 1 <<< (k + 1) →
      motive k entries.length (build redDepth depth entries) := by
  intro k
  induction k with
  | zero =>
      intro depth entries hdepth _ hmost
      obtain rfl : depth = redDepth := hdepth
      match entries with
      | [] =>
          rw [build_nil]
          exact empty
      | [x] =>
          rw [build_one]
          simpa using one x
      | _ :: _ :: _ =>
          simp only [List.length_cons] at hmost
          omega
  | succ k ih =>
      intro depth entries hdepth hleast hmost
      rw [Nat.shiftLeft_succ] at hleast hmost
      rcases build_eq redDepth depth entries with
        ⟨rfl, -⟩ | ⟨before, x, after, hsplit, hlen, hbuild⟩
      · rw [List.length_nil] at hleast
        omega
      · have htotal := congrArg List.length hsplit
        rw [List.length_append, List.length_cons] at htotal
        have hnext : depth + 1 + k = redDepth := by omega
        have hbefore := ih (depth + 1) before hnext (by omega) (by omega)
        have hafter := ih (depth + 1) after hnext (by omega) (by omega)
        rw [hbuild, if_neg (by omega), htotal, ← Nat.add_assoc]
        exact more x (by omega) (by omega) (by omega) hbefore hafter

/-- Below a node `k` levels above the red one, every way passes `k`
black nodes, if the red depth has red nodes at all. -/
theorem balanced_build (k depth : Nat) (entries : List (κ × ν))
    (hdepth : depth + k = redDepth)
    (hleast : 1 <<< k ≤ entries.length + 1)
    (hmost : entries.length < 1 <<< (k + 1)) :
    ∃ c n, Balanced c n (build redDepth depth entries)
      ∧ (0 < redDepth → n = k) := by
  refine build_induction
    (motive := fun k _ t => ∃ c n, Balanced c n t ∧ (0 < redDepth → n = k))
    ?empty ?one ?more k depth entries hdepth hleast hmost
  case empty => exact ⟨_, _, .leaf, fun _ => rfl⟩
  case one =>
      intro x
      by_cases hpos : 0 < redDepth
      · rw [if_pos hpos]
        exact ⟨_, _, .red .leaf .leaf, fun _ => rfl⟩
      · rw [if_neg hpos]
        exact ⟨_, _, .black .leaf .leaf, fun h => absurd h hpos⟩
  case more =>
      rintro k _ _ _ _ x hlt - - ⟨_, _, ha, hka⟩ ⟨_, _, hb, hkb⟩
      obtain rfl := hka (by omega)
      obtain rfl := hkb (by omega)
      exact ⟨_, _, .black ha hb, fun _ => rfl⟩

/-- That many entries fill as many levels as the logarithm of their
number says, and are too few to fill two more. -/
theorem log2_bounds (n : Nat) :
    1 <<< n.log2 ≤ n + 1 ∧ n < 1 <<< (n.log2 + 1) := by
  rw [Nat.one_shiftLeft, Nat.one_shiftLeft]
  refine ⟨?_, Nat.lt_log2_self⟩
  cases n with
  | zero => decide
  | succ n => exact Nat.le_succ_of_le (Nat.log2_self_le (Nat.succ_ne_zero n))

theorem entries_ofSorted (entries : List (κ × ν)) :
    (ofSorted entries).entries = entries := by
  rw [ofSorted, entries_blackened, entries_build]

/-- Sorted entries make a red-black tree. -/
theorem balanced_ofSorted (entries : List (κ × ν)) :
    ∃ n, Balanced black n (ofSorted entries) := by
  obtain ⟨hleast, hmost⟩ := log2_bounds entries.length
  obtain ⟨_, _, h, -⟩ :=
    balanced_build _ 0 entries (Nat.zero_add _) hleast hmost
  exact h.loose.blackened

end PersistentCollections.SortedMap.Tree
