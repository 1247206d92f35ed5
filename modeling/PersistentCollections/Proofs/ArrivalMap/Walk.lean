/-
A walk over an arrival map is a queue of its entries.

A walk goes over the tickets, and looks each key up to find its value. A
key that is not found would be passed over in silence; but every ticket
of a map that tracks rows has a key with a row (`Tracks.stored?_own`), so
a step finds what it looks for at once, at either end.
-/
import PersistentCollections.Proofs.ArrivalMap.Content
import PersistentCollections.Proofs.SortedMap.Walk

namespace PersistentCollections.ArrivalMap

variable {κ ν : Type} [BEq κ] [Hashable κ] {map : ArrivalMap κ ν}
  {rows coming : List (κ × Nat × ν)} {row : κ × Nat × ν}
  {entries : List (κ × ν)}

-- ================================================================= steps

section

variable {step : Walk κ → Option (Nat × κ) × Walk κ} {walk : Walk κ}
  {bound : Nat}

/-- Where there is no ticket there is no entry. -/
theorem stepFound_none (h : (step walk).1 = none) :
    map.stepFound step (bound + 1) walk = (none, (step walk).2) := by
  unfold stepFound
  cases hstep : step walk with
  | mk answer after =>
      rw [hstep] at h
      cases h
      rfl

/-- A ticket whose key is found gives the entry. -/
theorem stepFound_some {ticket : Nat} {key : κ} {entry : κ × ν}
    (h : (step walk).1 = some (ticket, key))
    (hfound : map.stored? key = some entry) :
    map.stepFound step (bound + 1) walk
      = (some entry, (step walk).2) := by
  unfold stepFound
  cases hstep : step walk with
  | mk answer after =>
      rw [hstep] at h
      cases h
      simp only [hfound]

end

-- ============================================================= both ends

/-- The key of a row finds the row. -/
theorem Tracks.stored?_own [EquivBEq κ] [LawfulHashable κ]
    (h : Tracks map rows) (hrow : row ∈ rows) :
    map.stored? row.1 = some (plain row) := by
  have hfound := h.entries.distinct.lookup_eq_some.mpr ⟨hrow, BEq.rfl⟩
  rw [h.stored?_eq, lookup_plain, hfound]
  rfl

/-- A walk over some rows with these entries still to come. -/
def Pends (rows : List (κ × Nat × ν)) (walk : Walk κ)
    (entries : List (κ × ν)) : Prop :=
  ∃ coming, coming ⊆ rows ∧ coming.map plain = entries
    ∧ SortedMap.Walk.Pends walk (coming.map ticketed)

theorem Tracks.walk_pends (h : Tracks map rows) :
    Pends rows map.walk (rows.map plain) := by
  refine ⟨rows, List.Subset.refl rows, rfl, ?_⟩
  rw [← h.order]
  exact SortedMap.Walk.start_pends h.sound.size_eq

variable [EquivBEq κ] [LawfulHashable κ]

/-- Each end takes the entries that are still to come, and passes over
none. -/
theorem Tracks.both_ends (h : Tracks map rows) :
    Steps.BothEnds map.next map.nextBack (Pends rows) where
  next := by
    intro walk entries hwalk
    obtain ⟨coming, hcoming, rfl, hpends⟩ := hwalk
    obtain ⟨hanswer, hafter⟩ := SortedMap.Walk.both_ends.next hpends
    unfold next
    cases coming with
    | nil =>
        rw [stepFound_none hanswer]
        exact ⟨rfl, [], hcoming, rfl, hafter⟩
    | cons row rest =>
        have hfound := h.stored?_own (hcoming List.mem_cons_self)
        rw [stepFound_some hanswer hfound]
        exact ⟨rfl, rest, fun x hx => hcoming (List.mem_cons_of_mem _ hx),
          rfl, hafter⟩
  nextBack := by
    intro walk entries hwalk
    obtain ⟨coming, hcoming, rfl, hpends⟩ := hwalk
    obtain ⟨hanswer, hafter⟩ := SortedMap.Walk.both_ends.nextBack hpends
    unfold nextBack
    rcases List.eq_nil_or_concat coming with rfl | ⟨rest, row, hlast⟩
    · rw [stepFound_none hanswer]
      exact ⟨rfl, [], hcoming, rfl, hafter⟩
    · rw [List.concat_eq_append] at hlast
      subst hlast
      have hrow : row ∈ rest ++ [row] := List.mem_concat_self
      have hfound := h.stored?_own (hcoming hrow)
      rw [List.map_append, List.map_singleton, Steps.popBack] at hanswer hafter
      rw [List.getLast?_concat] at hanswer
      rw [List.dropLast_concat] at hafter
      rw [List.map_append, List.map_singleton, Steps.popBack,
        stepFound_some hanswer hfound, List.getLast?_concat,
        List.dropLast_concat]
      exact ⟨rfl, rest,
        fun x hx => hcoming (List.mem_append_left _ hx), rfl, hafter⟩

/-- The entries that a walk collects, from either end. -/
theorem Tracks.toList_eq (h : Tracks map rows) :
    map.toList = rows.map plain
      ∧ map.toListBack = (rows.map plain).reverse := by
  have hbound : (rows.map plain).length ≤ map.size := by
    apply Nat.le_of_eq
    rw [h.size_eq, List.length_map]
  constructor
  · exact Steps.toList_eq h.both_ends.follows h.walk_pends hbound
  · apply Steps.toList_eq h.both_ends.follows_back
    · show Pends rows map.walk (rows.map plain).reverse.reverse
      rw [List.reverse_reverse]
      exact h.walk_pends
    · rwa [List.length_reverse]

end PersistentCollections.ArrivalMap
