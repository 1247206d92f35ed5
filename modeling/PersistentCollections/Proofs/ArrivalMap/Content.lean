/-
The content of an arrival map, and what edits do to it.

A row is a key with its ticket and its value. A map tracks rows when its
hash map records them and its sorted map has the key of each row under
its ticket, in the same order, and no ticket has reached the next one to
be given out. So tickets rise along the rows, and a ticket tells a row
just as its key does: what an edit takes out of one of the two maps by
key it takes out of the other one by ticket. Without their tickets the
rows are the plain list that a caller knows, and each edit goes through
and edits that list.
-/
import PersistentCollections.ArrivalMap
import PersistentCollections.Proofs.HashMap.Content
import PersistentCollections.Proofs.SortedMap.Content

namespace PersistentCollections.ArrivalMap

open HashMap (Distinct Ledger Records lookup store without)
open SortedMap (Ordered hasKey)

variable {κ ν : Type} {key : κ} {value : ν} {row : κ × Nat × ν}
  {rows : List (κ × Nat × ν)}

-- ================================================================== rows

/-- A row as the sorted map has it. -/
def ticketed (row : κ × Nat × ν) : Nat × κ := (row.2.1, row.1)

/-- A row as a caller knows it. -/
def plain (row : κ × Nat × ν) : κ × ν := (row.1, row.2.2)

/-- Rows with one ticket are one row. -/
theorem eq_of_ticket (h : Ordered compare (rows.map ticketed))
    {left right : κ × Nat × ν} (hl : left ∈ rows) (hr : right ∈ rows)
    (hticket : left.2.1 = right.2.1) : left = right := by
  apply HashMap.eq_of_unrelated
    (R := fun x y : κ × Nat × ν => x.2.1 = y.2.1) ?_ Eq.symm hl hr hticket
  refine (List.pairwise_map.mp h).imp fun hlt => ?_
  exact Nat.ne_of_lt (Nat.compare_eq_lt.mp hlt)

/-- A ticket past all others goes to the end. -/
theorem storeNew_next [BEq κ] {tickets : List (Nat × κ)} {next : Nat}
    (h : ∀ x ∈ tickets, x.1 < next) (key : κ) :
    SortedMap.storeNew compare next key tickets
      = tickets ++ [(next, key)] := by
  have hgt : ∀ x ∈ tickets, compare next x.1 = .gt :=
    fun x hx => Nat.compare_eq_gt.mpr (h x hx)
  have hnone : tickets.find? (hasKey compare next) = none := by
    apply List.find?_eq_none.mpr
    intro x hx
    simp [hasKey, hgt x hx]
  have hstore : SortedMap.store compare next key (tickets ++ [])
      = tickets ++ [(next, key)] := SortedMap.store_append_gt hgt
  rw [List.append_nil] at hstore
  rw [SortedMap.storeNew, hnone]
  exact hstore

section

variable [BEq κ]

theorem lookup_plain (key : κ) (rows : List (κ × Nat × ν)) :
    lookup key (rows.map plain) = (lookup key rows).map plain := by
  unfold lookup
  rw [List.find?_map]
  rfl

theorem store_plain (key : κ) (ticket : Nat) (value : ν)
    (rows : List (κ × Nat × ν)) :
    (store key (ticket, value) rows).map plain
      = store key value (rows.map plain) := by
  induction rows with
  | nil => rfl
  | cons row rows ih =>
      rw [store, List.map_cons, store, ← ih]
      show _ = if row.1 == key then _ else _
      split <;> rfl

theorem without_plain (key : κ) (rows : List (κ × Nat × ν)) :
    (without key rows).map plain = without key (rows.map plain) := by
  unfold without
  rw [List.filter_map]
  rfl

/-- A value that is replaced leaves all tickets where they are. -/
theorem store_ticketed (hfound : lookup key rows = some row) :
    (store key (row.2.1, value) rows).map ticketed
      = rows.map ticketed := by
  induction rows with
  | nil => cases hfound
  | cons first rows ih =>
      unfold lookup at hfound ih
      rw [List.find?_cons] at hfound
      rw [store]
      cases hkey : first.1 == key with
      | true =>
          rw [hkey] at hfound
          cases hfound
          rfl
      | false =>
          rw [hkey] at hfound
          exact congrArg (ticketed first :: ·) (ih hfound)

/-- Taking out the ticket of a key takes out the row of the key. -/
theorem without_ticketed [EquivBEq κ]
    (hordered : Ordered compare (rows.map ticketed))
    (hdistinct : Distinct rows) (hfound : lookup key rows = some row) :
    (rows.map ticketed).filter (fun x => !hasKey compare row.2.1 x)
      = (without key rows).map ticketed := by
  obtain ⟨hrow, hkey⟩ := hdistinct.lookup_eq_some.mp hfound
  rw [List.filter_map]
  refine congrArg _ (List.filter_congr fun other hother => ?_)
  show (!(compare row.2.1 other.2.1 == .eq)) = !(other.1 == key)
  congr 1
  rw [Bool.eq_iff_iff, beq_iff_eq, Nat.compare_eq_eq]
  constructor
  · intro hticket
    rw [← eq_of_ticket hordered hrow hother hticket]
    exact hkey
  · intro hother_key
    have hsame := BEq.trans hkey (BEq.symm hother_key)
    rw [hdistinct.eq_of_beq hrow hother hsame]

/-- A list with a value under a key: in place of the one that is there,
unless that one is equal, or else at the end. -/
def enter [BEq ν] (key : κ) (value : ν) (entries : List (κ × ν)) :
    List (κ × ν) :=
  match lookup key entries with
  | some (_, stored) =>
    if stored == value then entries else store key value entries
  | none => entries ++ [(key, value)]

end

-- ================================================================== maps

variable [BEq κ] [Hashable κ] {map : ArrivalMap κ ν}
  {entries : List (κ × ν)}

/-- A map that holds some rows in order of arrival. -/
structure Tracks (map : ArrivalMap κ ν) (rows : List (κ × Nat × ν)) :
    Prop where
  entries : Records map.entries ⟨rows, none⟩
  sound : SortedMap.Sound map.order
  order : map.order.entries = rows.map ticketed
  issued : ∀ x ∈ map.order.entries, x.1 < map.nextTicket

/-- A map that holds a plain list. -/
def Holds (map : ArrivalMap κ ν) (entries : List (κ × ν)) : Prop :=
  ∃ rows, Tracks map rows ∧ rows.map plain = entries

theorem tracks_empty : Tracks (empty : ArrivalMap κ ν) [] where
  entries := HashMap.records_empty
  sound := SortedMap.sound_empty
  order := rfl
  issued := nofun

theorem holds_empty : Holds (empty : ArrivalMap κ ν) [] :=
  ⟨[], tracks_empty, rfl⟩

/-- The tickets rise along the rows. -/
theorem Tracks.ordered (h : Tracks map rows) :
    Ordered compare (rows.map ticketed) := by
  rw [← h.order]
  exact h.sound.ordered

theorem Tracks.size_eq (h : Tracks map rows) : map.size = rows.length := by
  unfold size
  rw [h.sound.size_eq, h.order, List.length_map]

variable [LawfulHashable κ]

theorem Tracks.get?_eq (h : Tracks map rows) (key : κ) :
    map.entries.get? key = (lookup key rows).map (·.2) := by
  rw [HashMap.get?, h.entries.stored?_eq]

theorem Tracks.stored?_eq (h : Tracks map rows) (key : κ) :
    map.stored? key = lookup key (rows.map plain) := by
  rw [stored?, h.entries.stored?_eq, lookup_plain]
  rfl

-- ================================================================= edits

/-- Inserting goes through; a new key goes to the end of the list. -/
theorem insert_spec [BEq ν] (h : Holds map entries) (stamp : Stamp)
    (key : κ) (value : ν) :
    ∃ after, map.insert stamp key value = .ok after
      ∧ Holds after (enter key value entries) := by
  obtain ⟨rows, h, rfl⟩ := h
  unfold insert enter
  rw [h.get?_eq, lookup_plain]
  cases hfound : lookup key rows with
  | none =>
      obtain ⟨stored, hstored, hrecords⟩ :=
        HashMap.insert_spec h.entries stamp key (map.nextTicket, value)
      obtain ⟨hsound, horder⟩ :=
        SortedMap.insert_spec h.sound stamp map.nextTicket key
      rw [storeNew_next h.issued] at horder
      simp only [Ledger.insert, hfound, Ledger.put,
        HashMap.store_of_lookup hfound] at hrecords
      simp only [Option.map_none, hstored]
      refine ⟨_, rfl, _, ⟨hrecords, hsound, ?_, ?_⟩, ?_⟩
      · rw [horder, h.order, List.map_append]
        rfl
      · intro x (hx : x ∈ (map.order.insert _ _ _).entries)
        rw [horder] at hx
        rcases List.mem_append.mp hx with hx | hx
        · exact Nat.lt_succ_of_lt (h.issued x hx)
        · rw [List.mem_singleton.mp hx]
          exact Nat.lt_succ_self _
      · rw [List.map_append]
        rfl
  | some row =>
      obtain ⟨storedKey, ticket, stored⟩ := row
      simp only [Option.map_some, plain]
      cases hequal : stored == value with
      | true => exact ⟨map, rfl, rows, h, rfl⟩
      | false =>
          have hpair : ((ticket, stored) == (ticket, value)) = false := by
            show (ticket == ticket && stored == value) = false
            rw [hequal, Bool.and_false]
          obtain ⟨changed, hchanged, hrecords⟩ :=
            HashMap.insert_spec h.entries stamp key (ticket, value)
          simp only [Ledger.insert, hfound, hpair, Bool.false_eq_true,
            if_false] at hrecords
          simp only [Bool.false_eq_true, if_false, hchanged]
          refine ⟨_, rfl, _, ⟨hrecords, h.sound, ?_, h.issued⟩,
            store_plain key ticket value rows⟩
          exact h.order.trans (store_ticketed hfound).symm

/-- Removing goes through and takes the key out of the list. -/
theorem erase_spec [EquivBEq κ] (h : Holds map entries) (stamp : Stamp)
    (key : κ) :
    ∃ after, map.erase stamp key = .ok after
      ∧ Holds after (without key entries) := by
  obtain ⟨rows, h, rfl⟩ := h
  unfold erase
  rw [h.get?_eq, ← without_plain]
  cases hfound : lookup key rows with
  | none =>
      rw [HashMap.without_of_lookup hfound]
      exact ⟨map, rfl, rows, h, rfl⟩
  | some row =>
      obtain ⟨rest, hrest, hrecords⟩ :=
        HashMap.erase_spec h.entries stamp key
      obtain ⟨others, hothers, hsound, horder⟩ :=
        SortedMap.erase_spec h.sound stamp row.2.1
      simp only [Option.map_some, hrest, hothers]
      refine ⟨_, rfl, _, ⟨hrecords, hsound, ?_, ?_⟩, rfl⟩
      · rw [horder, h.order]
        exact without_ticketed h.ordered h.entries.distinct hfound
      · intro x (hx : x ∈ others.entries)
        rw [horder] at hx
        exact h.issued x (List.mem_filter.mp hx).1

/-- Some entries, one after the other, go through. -/
theorem ofList_spec [BEq ν] (stamp : Stamp) (values : List (κ × ν)) :
    ∃ map : ArrivalMap κ ν, ofList stamp values = .ok map
      ∧ Holds map (values.foldl (fun entries x => enter x.1 x.2 entries)
          []) :=
  foldlM_lockstep (R := Holds)
    (fun h x => insert_spec h stamp x.1 x.2) values holds_empty

end PersistentCollections.ArrivalMap
