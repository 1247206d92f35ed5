/-
What the calls on a draft make of the ledger of its map.

A draft of a map that records a ledger answers each call from the ledger
and is left with a map that records the edited one. Its edits store what
they are given, whatever is there, and answer what they displace.
-/
import PersistentCollections.HashMap.Draft
import PersistentCollections.Proofs.HashMap.Content

namespace PersistentCollections.HashMap

variable {κ ν : Type} [BEq κ] [Hashable κ] {map : HashMap κ ν}
  {ledger : Ledger κ ν}

-- ========================================================= the null slot

/-- Filling the null slot answers the value it had. -/
theorem draft_insertNull_spec (h : Records map ledger) (stamp : Stamp)
    (value : ν) :
    ∃ after : HashMap κ ν,
      map.draft.insertNull stamp value = .ok (ledger.null, after.draft)
        ∧ Records after (ledger.putNull value) := by
  refine ⟨map.putNull ⟨stamp, value⟩, ?_,
    putNull_records h ⟨stamp, value⟩⟩
  rw [← h.null]
  rfl

/-- Emptying the null slot answers the value it had. -/
theorem draft_eraseNull_spec (h : Records map ledger) :
    ∃ after : HashMap κ ν,
      map.draft.eraseNull = .ok (ledger.null, after.draft)
        ∧ Records after ledger.eraseNull := by
  refine ⟨map.eraseNull, ?_, eraseNull_records h⟩
  rw [← h.null]
  rfl

-- ================================================================== keys

variable [LawfulHashable κ]

/-- Storing under a key answers the value it had. -/
theorem draft_insert_spec (h : Records map ledger) (stamp : Stamp)
    (key : κ) (value : ν) :
    ∃ after : HashMap κ ν,
      map.draft.insert stamp key value
          = .ok ((lookup key ledger.keyed).map (·.2), after.draft)
        ∧ Records after (ledger.put key value) := by
  obtain ⟨after, hput, hafter⟩ := put_spec h stamp key value
  refine ⟨after, ?_, hafter⟩
  simp only [Draft.insert, Draft.opened, draft, bind, Except.bind, hput]
  rfl

theorem draft_insertAll_spec (h : Records map ledger) (stamp : Stamp)
    (entries : List (κ × ν)) :
    ∃ after : HashMap κ ν,
      map.draft.insertAll stamp entries = .ok after.draft
        ∧ Records after (ledger.putAll entries) := by
  obtain ⟨after, hput, hafter⟩ := putAll_spec h stamp entries
  refine ⟨after, ?_, hafter⟩
  simp only [Draft.insertAll, Draft.opened, draft, bind, Except.bind, hput]
  rfl

/-- Taking out a key answers the value it had. -/
theorem draft_erase_spec [EquivBEq κ] (h : Records map ledger)
    (stamp : Stamp) (key : κ) :
    ∃ after : HashMap κ ν,
      map.draft.erase stamp key
          = .ok ((lookup key ledger.keyed).map (·.2), after.draft)
        ∧ Records after (ledger.erase key) := by
  have hfind := h.find?_eq key
  simp only [Draft.erase, Draft.opened, draft, bind, Except.bind, hfind]
  cases hfound : lookup key ledger.keyed with
  | none =>
      refine ⟨map, rfl, ?_⟩
      rw [Ledger.erase, without_of_lookup hfound]
      exact h
  | some x =>
      obtain ⟨after, htake, hafter⟩ := take_spec h stamp hfound
      refine ⟨after, ?_, hafter⟩
      simp only [Failure.ofShape, htake]
      rfl

end PersistentCollections.HashMap
