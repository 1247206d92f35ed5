/-
A run of edits leaves the map that its ledger says.

The edits of a run are made on a map and noted in a ledger, one by one.
Every edit has a result and keeps the map in step with the ledger
(`edit_spec`), so after any run the searches, the null slot and the size
of the map are those of the ledger, whatever the hashes of the keys are.
-/
import PersistentCollections.Proofs.HashMap.Content

namespace PersistentCollections.HashMap

variable {κ ν : Type}

/-- What a caller may ask of a map that changes it. -/
inductive Edit (κ ν : Type) where
  /-- Store a value under a key, unless an equal one is there. -/
  | insert (key : κ) (value : ν)
  /-- Remove a key. -/
  | erase (key : κ)
  /-- Put in place of a value what a function makes of it. -/
  | alter (key : κ) (change : Option ν → Option ν)
  /-- Fill the null slot, unless an equal value is there. -/
  | insertNull (value : ν)
  /-- Empty the null slot. -/
  | eraseNull
  /-- Start over with the map of some entries. -/
  | ofList (entries : List (κ × ν))

section

variable [BEq κ] [BEq ν]

/-- The ledger after an edit. -/
def Ledger.note (ledger : Ledger κ ν) : Edit κ ν → Ledger κ ν
  | .insert key value => ledger.insert key value
  | .erase key => ledger.erase key
  | .alter key change => ledger.alter key change
  | .insertNull value => ledger.insertNull value
  | .eraseNull => ledger.eraseNull
  | .ofList entries => Ledger.empty.putAll entries

/-- The ledger after a run of edits, each with its stamp. -/
def Ledger.noteAll (ledger : Ledger κ ν)
    (edits : List (Stamp × Edit κ ν)) : Ledger κ ν :=
  edits.foldl (fun ledger (_, edit) => ledger.note edit) ledger

variable [Hashable κ]

/-- The map after an edit. -/
def edit (map : HashMap κ ν) (stamp : Stamp) :
    Edit κ ν → Except Failure (HashMap κ ν)
  | .insert key value => map.insert stamp key value
  | .erase key => map.erase stamp key
  | .alter key change => map.alter stamp key change
  | .insertNull value => .ok (map.insertNull stamp value)
  | .eraseNull => .ok map.eraseNull
  | .ofList entries => ofList stamp entries

/-- The map after a run of edits, each with its stamp. -/
def editAll (map : HashMap κ ν) (edits : List (Stamp × Edit κ ν)) :
    Except Failure (HashMap κ ν) :=
  edits.foldlM (fun map (stamp, edit) => map.edit stamp edit) map

end

variable [BEq κ] [EquivBEq κ] [Hashable κ] [LawfulHashable κ] [BEq ν]

/-- An edit keeps a map in step with its ledger. -/
theorem edit_spec {map : HashMap κ ν} {ledger : Ledger κ ν}
    (h : Records map ledger) (stamp : Stamp) (edit : Edit κ ν) :
    ∃ after, map.edit stamp edit = .ok after
      ∧ Records after (ledger.note edit) := by
  cases edit with
  | insert key value => exact insert_spec h stamp key value
  | erase key => exact erase_spec h stamp key
  | alter key change => exact alter_spec h stamp key change
  | insertNull value => exact ⟨_, rfl, insertNull_records h stamp value⟩
  | eraseNull => exact ⟨_, rfl, eraseNull_records h⟩
  | ofList entries => exact ofList_spec stamp entries

/-- A run of edits keeps a map in step with its ledger. -/
theorem editAll_spec {map : HashMap κ ν} {ledger : Ledger κ ν}
    (h : Records map ledger) (edits : List (Stamp × Edit κ ν)) :
    ∃ after, map.editAll edits = .ok after
      ∧ Records after (ledger.noteAll edits) := by
  refine foldlM_lockstep (fun h step => ?_) edits h
  exact edit_spec h step.1 step.2

/-- After any run of edits a map answers what its ledger answers. -/
theorem editAll_answers (edits : List (Stamp × Edit κ ν)) :
    let ledger : Ledger κ ν := Ledger.empty.noteAll edits
    ∃ map, empty.editAll edits = .ok map
      ∧ (∀ key, map.find? key = some (lookup key ledger.keyed)
        ∧ map.stored? key = lookup key ledger.keyed
        ∧ map.get? key = (lookup key ledger.keyed).map (·.2)
        ∧ map.contains key = (lookup key ledger.keyed).isSome)
      ∧ map.getNull? = ledger.null
      ∧ map.size = ledger.keyed.length + ledger.null.isSome.toNat
      ∧ Distinct ledger.keyed := by
  intro ledger
  obtain ⟨map, hrun, h⟩ := editAll_spec records_empty edits
  refine ⟨map, hrun, fun key => ?_, h.null, h.size, h.distinct⟩
  have hstored := h.stored?_eq key
  refine ⟨h.find?_eq key, hstored, ?_, ?_⟩
  · rw [get?, hstored]
  · rw [contains, hstored]

/-- A key that leaves and comes back, beside two of which one has its
hash and the other its first digit. -/
theorem editAll_answers_colliding :
    ∃ map : HashMap Nat Nat,
      empty.editAll [(0, .insert 1 10), (1, .insert (18446744073709551617) 20),
          (2, .insert 33 30), (3, .erase 1),
          (4, .alter (18446744073709551617) (·.map (· + 1))), (5, .insert 1 11),
          (6, .insertNull 0)] = .ok map
        ∧ map.get? 1 = some 11 ∧ map.get? (18446744073709551617) = some 21
        ∧ map.get? 2 = none ∧ map.size = 4 := by
  obtain ⟨map, hrun, hread, -, hsize, -⟩ :=
    editAll_answers (κ := Nat) (ν := Nat)
      [(0, .insert 1 10), (1, .insert (18446744073709551617) 20),
        (2, .insert 33 30), (3, .erase 1),
        (4, .alter (18446744073709551617) (·.map (· + 1))), (5, .insert 1 11),
        (6, .insertNull 0)]
  exact ⟨map, hrun, (hread 1).2.2.1, (hread (18446744073709551617)).2.2.1,
    (hread 2).2.2.1, hsize⟩

end PersistentCollections.HashMap
