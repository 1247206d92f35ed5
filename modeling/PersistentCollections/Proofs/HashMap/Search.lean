/-
The search in a trie finds the entry that the list of its entries has.

A branch reads the digit of the hash that goes on with its path
(`branch_at`). The cell of that digit holds all entries of the hash, so
the search may forget the others. It never runs out of digits: where a
path has thirteen of them there is no branch.
-/
import PersistentCollections.Proofs.HashMap.Alike
import PersistentCollections.Proofs.HashMap.Shape

namespace PersistentCollections.HashMap

open Node (At getElem?_other split_cells)

variable {κ ν : Type} {path : List Nat}
  {node : Node κ ν} {key : κ} {left : Nat}
  {cells : List (Option (Slot κ ν))}

/-- The cell that a branch reads for a hash. -/
theorem branch_at {h : UInt64} (room : path.length < digitsPerHash)
    (lays : node.Lays cells) (hleads : Leads path h)
    (hleft : path.length + left = digitsPerHash) :
    ∃ rest before cell after, left = rest + 1
      ∧ cells = before ++ cell :: after
      ∧ digit h (rest + 1) = before.length
      ∧ Leads (path ++ [before.length]) h
      ∧ (path ++ [before.length]).length + rest = digitsPerHash := by
  obtain ⟨rest, rfl⟩ :=
    Nat.exists_eq_succ_of_ne_zero (show left ≠ 0 by omega)
  have hdigit : digit h (rest + 1) < cells.length := by
    rw [lays.length]
    exact digit_lt h _
  obtain ⟨before, after, hcells, hlen⟩ :=
    split_cells (List.getElem?_eq_getElem hdigit)
  refine ⟨rest, before, _, after, rfl, hcells, hlen, ?_, ?_⟩
  · rw [← hlen]
    exact hleads.step hleft
  · rw [List.length_append, List.length_singleton]
    omega

theorem find?_branch [BEq κ] (lays : node.Lays cells) (h : UInt64) :
    node.find? h key (left + 1) = (do
      match ← node.slot? (digit h (left + 1)) with
      | none => some none
      | some (.entry stored storedKey value) =>
        return if stored == h && storedKey == key then
          some (storedKey, value)
        else
          none
      | some (.node child) => child.find? h key left) := by
  cases lays <;> rfl

/-- The search finds the first entry of the key among those listed. -/
theorem find?_spec [BEq κ] [Hashable κ] [LawfulHashable κ]
    (h : node.Sound path) :
    ∀ {left : Nat}, Leads path (hash key) →
      path.length + left = digitsPerHash →
      node.find? (hash key) key left = some (lookup key node.listed) := by
  induction h with
  | @bucket path stored entries leads hashes distinct =>
      intro left _ _
      rw [listed_bucket]
      unfold Node.find?
      cases hstored : stored == hash key with
      | true => rfl
      | false =>
          have hnone : lookup key entries = none := by
            apply lookup_elsewhere
            intro x hx
            rw [hashes x hx]
            simpa using hstored
          rw [hnone]
          rfl
  | branch room lays entries children many ih =>
      intro left hleads hleft
      obtain ⟨left, before, cell, after, rfl, rfl, hdigit, hnext, hlen⟩ :=
        branch_at room lays hleads hleft
      have hslots := slots_sound entries children many
      obtain ⟨hbefore, hafter⟩ := elsewhere hslots hnext
      rw [find?_branch lays, hdigit, lays.slot?_eq, lays.listed_eq,
        listedCells_append, listedCells_cons, ← List.append_assoc,
        lookup_middle hbefore hafter]
      cases cell with
      | none => rfl
      | some slot =>
          rw [listedCell_some]
          cases slot with
          | node child =>
              rw [listed_node]
              exact ih before.length child at_middle hnext hlen
          | entry stored storedKey value =>
              obtain ⟨rfl, -⟩ := entries _ _ _ _ at_middle
              rw [listed_entry]
              unfold lookup
              rw [List.find?_cons]
              cases hkey : storedKey == key with
              | true => simp [hkey, hash_eq hkey]
              | false => simp [hkey]

end PersistentCollections.HashMap
