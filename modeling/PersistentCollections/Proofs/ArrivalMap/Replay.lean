/-
A run of edits leaves the arrival map that its list says.

The edits of a run are made on a map and on a plain list, one by one.
Every edit has a result and keeps the map in step with the list
(`edit_spec`), so after any run the reads of the map answer from the
list, a walk hands it out from either end, and the two maps inside tell
the same keys and tickets.
-/
import PersistentCollections.Proofs.ArrivalMap.Walk

namespace PersistentCollections.ArrivalMap

open HashMap (Distinct lookup without)
open SortedMap (hasKey)

variable {κ ν : Type}

/-- What a caller may ask of a map that changes it. -/
inductive Edit (κ ν : Type) where
  /-- Store a value under a key, unless an equal one is there. -/
  | insert (key : κ) (value : ν)
  /-- Remove a key. -/
  | erase (key : κ)
  /-- Start over with the map of some entries. -/
  | ofList (entries : List (κ × ν))

section

variable [BEq κ] [BEq ν]

/-- The list after an edit. -/
def note (entries : List (κ × ν)) : Edit κ ν → List (κ × ν)
  | .insert key value => enter key value entries
  | .erase key => without key entries
  | .ofList values =>
    values.foldl (fun entries x => enter x.1 x.2 entries) []

/-- The list after a run of edits, each with its stamp. -/
def noteAll (edits : List (Stamp × Edit κ ν)) : List (κ × ν) :=
  edits.foldl (fun entries (_, edit) => note entries edit) []

variable [Hashable κ]

/-- The map after an edit. -/
def edit (map : ArrivalMap κ ν) (stamp : Stamp) :
    Edit κ ν → Except Failure (ArrivalMap κ ν)
  | .insert key value => map.insert stamp key value
  | .erase key => map.erase stamp key
  | .ofList entries => ofList stamp entries

/-- The map after a run of edits, each with its stamp. -/
def editAll (edits : List (Stamp × Edit κ ν)) :
    Except Failure (ArrivalMap κ ν) :=
  edits.foldlM (fun map (stamp, change) => map.edit stamp change) empty

end

variable [BEq κ] [EquivBEq κ] [Hashable κ] [LawfulHashable κ]
  {map : ArrivalMap κ ν} {entries : List (κ × ν)}
  {rows : List (κ × Nat × ν)}

-- =============================================================== pairing

/-- The two maps of an arrival map tell the same keys and tickets: the
entry of a key has a ticket under which the key is found, and the key of
a ticket has an entry with that ticket. -/
structure Paired (map : ArrivalMap κ ν) : Prop where
  size : map.entries.size = map.order.size
  order : ∀ key stored ticket value,
    map.entries.stored? key = some (stored, ticket, value) →
    (stored == key) = true ∧ map.order.get? ticket = some stored
  entry : ∀ ticket key, map.order.get? ticket = some key →
    ticket < map.nextTicket
      ∧ ∃ value, map.entries.stored? key = some (key, ticket, value)

theorem Tracks.paired (h : Tracks map rows) : Paired map where
  size := by
    rw [h.entries.size, h.sound.size_eq, h.order, List.length_map]
    rfl
  order := by
    intro key stored ticket value hstored
    rw [h.entries.stored?_eq, h.entries.distinct.lookup_eq_some] at hstored
    obtain ⟨hrow, hkey⟩ := hstored
    have hfound : map.order.entries.find? (hasKey compare ticket)
        = some (ticket, stored) := by
      rw [h.sound.ordered.find?_eq_some, h.order]
      exact ⟨List.mem_map_of_mem hrow, Nat.compare_eq_eq.mpr rfl⟩
    refine ⟨hkey, ?_⟩
    rw [SortedMap.get?, SortedMap.stored?_eq h.sound, hfound]
    rfl
  entry := by
    intro ticket key hkey
    rw [SortedMap.get?, SortedMap.stored?_eq h.sound,
      Option.map_eq_some_iff] at hkey
    obtain ⟨x, hfound, rfl⟩ := hkey
    obtain ⟨hx, hticket⟩ := h.sound.ordered.find?_eq_some.mp hfound
    obtain rfl := Nat.compare_eq_eq.mp hticket
    refine ⟨h.issued x hx, ?_⟩
    rw [h.order] at hx
    obtain ⟨row, hrow, rfl⟩ := List.mem_map.mp hx
    refine ⟨row.2.2, ?_⟩
    rw [h.entries.stored?_eq]
    exact h.entries.distinct.lookup_eq_some.mpr ⟨hrow, BEq.rfl⟩

-- ================================================================== runs

variable [BEq ν]

/-- An edit keeps a map in step with its list. -/
theorem edit_spec (h : Holds map entries) (stamp : Stamp)
    (change : Edit κ ν) :
    ∃ after, map.edit stamp change = .ok after
      ∧ Holds after (note entries change) := by
  cases change with
  | insert key value => exact insert_spec h stamp key value
  | erase key => exact erase_spec h stamp key
  | ofList values => exact ofList_spec stamp values

/-- A run of edits keeps a map in step with its list. -/
theorem editAll_spec (edits : List (Stamp × Edit κ ν)) :
    ∃ map : ArrivalMap κ ν, editAll edits = .ok map
      ∧ Holds map (noteAll edits) :=
  foldlM_lockstep (R := Holds) (fun h step => edit_spec h step.1 step.2)
    edits holds_empty

/-- After any run of edits a map answers what its list answers, a walk
hands the list out under any moves at its two ends, and the two maps
inside are paired. -/
theorem editAll_replays_arrivals (edits : List (Stamp × Edit κ ν)) :
    let entries : List (κ × ν) := noteAll edits
    ∃ map, editAll edits = .ok map
      ∧ Distinct entries
      ∧ (∀ key, map.stored? key = lookup key entries
        ∧ map.get? key = (lookup key entries).map (·.2)
        ∧ map.contains key = (lookup key entries).isSome)
      ∧ map.size = entries.length
      ∧ (∀ moves,
          (transcript (Steps.move map.next map.nextBack) map.walk moves).1
            = (transcript Steps.moveList entries moves).1)
      ∧ map.toList = entries ∧ map.toListBack = entries.reverse
      ∧ map.keys = entries.map (·.1) ∧ map.values = entries.map (·.2)
      ∧ map.first? = entries.head? ∧ map.last? = entries.getLast?
      ∧ map.Paired := by
  intro entries
  obtain ⟨map, hmap, rows, h, hrows⟩ :=
    editAll_spec (κ := κ) (ν := ν) edits
  replace hrows : rows.map plain = entries := hrows
  obtain ⟨hlist, hback⟩ := h.toList_eq
  have hwalk := h.walk_pends
  rw [hrows] at hlist hback hwalk
  have hdistinct : Distinct entries := by
    rw [← hrows]
    exact List.pairwise_map.mpr h.entries.distinct
  have hstored : ∀ key, map.stored? key = lookup key entries := by
    intro key
    rw [h.stored?_eq, hrows]
  have hget : ∀ key, map.get? key = (lookup key entries).map (·.2) := by
    intro key
    rw [get?, h.get?_eq, ← hrows, lookup_plain, Option.map_map,
      Option.map_map]
    rfl
  have hcontains : ∀ key,
      map.contains key = (lookup key entries).isSome := by
    intro key
    rw [contains, HashMap.contains, h.entries.stored?_eq, ← hrows,
      lookup_plain, Option.isSome_map]
  refine ⟨map, hmap, hdistinct,
    fun key => ⟨hstored key, hget key, hcontains key⟩, ?_,
    fun moves => (h.both_ends.run hwalk moves).1, hlist, hback,
    congrArg _ hlist, congrArg _ hlist, (h.both_ends.next hwalk).1.trans ?_,
    (h.both_ends.nextBack hwalk).1, h.paired⟩
  · rw [h.size_eq, ← hrows, List.length_map]
  · cases entries <;> rfl

/-- Two keys of one hash, of which the second leaves and comes back, and
a third one between them that has their first digit. -/
theorem editAll_replays_arrivals_colliding :
    ∃ map : ArrivalMap Nat Nat,
      editAll [(0, .insert 1 10), (1, .insert 18446744073709551617 20),
          (2, .insert 33 30), (3, .insert 1 11),
          (4, .erase 18446744073709551617),
          (5, .insert 18446744073709551617 21)] = .ok map
        ∧ map.toList = [(1, 11), (33, 30), (18446744073709551617, 21)]
        ∧ (transcript (Steps.move map.next map.nextBack) map.walk
            [.nextBack, .next, .nth 1, .nextBack]).1
          = [some (18446744073709551617, 21), some (1, 11), none, none]
        ∧ map.get? 2 = none ∧ map.size = 3 ∧ map.Paired := by
  obtain ⟨map, hmap, -, hread, hsize, hwalk, hlist, -, -, -, -, -, hpaired⟩ :=
    editAll_replays_arrivals (κ := Nat) (ν := Nat)
      [(0, .insert 1 10), (1, .insert 18446744073709551617 20),
        (2, .insert 33 30), (3, .insert 1 11),
        (4, .erase 18446744073709551617),
        (5, .insert 18446744073709551617 21)]
  exact ⟨map, hmap, hlist, hwalk _, (hread 2).2.1, hsize, hpaired⟩

end PersistentCollections.ArrivalMap
