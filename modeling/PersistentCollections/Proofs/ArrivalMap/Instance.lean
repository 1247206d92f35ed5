/-
Which edits of a map found by hash hand back the map itself.

An arrival map is two maps, and it is the same instance as another one
when both of them are. An edit that has something to change changes the
hash map, and that alone makes the result another instance; otherwise
the map is handed back as it is. With the edits of the hash map beside
those of the arrival map, this is what callers are told of all maps that
find their keys by hash.
-/
import PersistentCollections.Proofs.ArrivalMap.Replay
import PersistentCollections.Proofs.HashMap.Instance

namespace PersistentCollections

namespace ArrivalMap

open HashMap (Distinct lookup)
open Stamped (HandsBack)

variable {κ ν : Type} {map left right : ArrivalMap κ ν} {stamp : Stamp}
  {rows : List (κ × Nat × ν)}

theorem same_self (map : ArrivalMap κ ν) : map.same map = true := by
  unfold same
  rw [HashMap.same_self]
  exact Stamped.same_self map.order.root

theorem not_same_of_entries
    (h : left.entries.same right.entries = false) :
    left.same right = false := by
  unfold same
  rw [h]
  rfl

variable [BEq κ] [Hashable κ]

/-- When the edits of an arrival map hand back the map itself, which is
then left as it is in every respect. -/
structure HandsBackItself [BEq ν] (map : ArrivalMap κ ν) (stamp : Stamp) :
    Prop where
  /-- An equal value is stored under the key. -/
  insert : ∀ key value, HandsBack same Eq map (map.insert stamp key value)
    (∃ x ∈ map.toList, (x.1 == key) = true ∧ (x.2 == value) = true)
  /-- The key is absent. -/
  erase : ∀ key, HandsBack same Eq map (map.erase stamp key)
    (∀ x ∈ map.toList, (x.1 == key) = false)

variable [LawfulHashable κ]

theorem insert_hands_back [BEq ν] (h : Tracks map rows)
    (hlacks : map.entries.Lacks stamp) (key : κ) (value : ν) :
    HandsBack same Eq map (map.insert stamp key value)
      (∃ row, lookup key rows = some row
        ∧ (row.2.2 == value) = true) := by
  unfold insert
  rw [h.get?_eq]
  cases hfound : lookup key rows with
  | none =>
      have hentries := HashMap.insert_hands_back h.entries hlacks key
        (map.nextTicket, value)
      obtain ⟨stored, hstored, hother⟩ := hentries.busy (by simp [hfound])
      simp only [Option.map_none, hstored]
      exact .changed nofun (not_same_of_entries hother)
  | some row =>
      obtain ⟨storedKey, ticket, stored⟩ := row
      show HandsBack same Eq map (if stored == value then .ok map else do
        return { map with
          entries := ← map.entries.insert stamp key (ticket, value) }) _
      by_cases hequal : (stored == value) = true
      · rw [if_pos hequal]
        exact .kept ⟨_, rfl, hequal⟩ (same_self map) rfl
      · have hpair : ((ticket, stored) == (ticket, value)) = false := by
          show (ticket == ticket && stored == value) = false
          rw [Bool.eq_false_iff.mpr hequal, Bool.and_false]
        have hentries := HashMap.insert_hands_back h.entries hlacks key
          (ticket, value)
        obtain ⟨changed, hchanged, hother⟩ :=
          hentries.busy (by simp [hfound, hpair])
        rw [if_neg hequal, hchanged]
        refine .changed ?_ (not_same_of_entries hother)
        rintro ⟨_, ⟨⟩, hstored⟩
        exact hequal hstored

variable [EquivBEq κ]

theorem erase_hands_back (h : Tracks map rows)
    (hlacks : map.entries.Lacks stamp) (key : κ) :
    HandsBack same Eq map (map.erase stamp key)
      (lookup key rows = none) := by
  unfold erase
  rw [h.get?_eq]
  cases hfound : lookup key rows with
  | none => exact .kept rfl (same_self map) rfl
  | some row =>
      have hentries := HashMap.erase_hands_back h.entries hlacks key
      obtain ⟨rest, hrest, hother⟩ := hentries.busy (by simp [hfound])
      obtain ⟨others, hothers, -⟩ :=
        SortedMap.erase_spec h.sound stamp row.2.1
      simp only [Option.map_some, hrest, hothers]
      exact .changed (Option.some_ne_none row) (not_same_of_entries hother)

theorem Tracks.hands_back [BEq ν] (h : Tracks map rows)
    (hlacks : map.entries.Lacks stamp) : HandsBackItself map stamp := by
  have hlist := h.toList_eq.1
  have hdistinct : Distinct map.toList := by
    rw [hlist]
    exact List.pairwise_map.mpr h.entries.distinct
  have hstored : ∀ key, lookup key map.toList = (lookup key rows).map plain := by
    intro key
    rw [hlist, lookup_plain]
  constructor
  case insert =>
      intro key value
      refine (insert_hands_back h hlacks key value).congr ?_
      simp only [← and_assoc, ← hdistinct.lookup_eq_some, hstored,
        Option.map_eq_some_iff]
      constructor
      · rintro ⟨row, hrow, hequal⟩
        exact ⟨plain row, ⟨row, hrow, rfl⟩, hequal⟩
      · rintro ⟨_, ⟨row, hrow, rfl⟩, hequal⟩
        exact ⟨row, hrow, hequal⟩
  case erase =>
      intro key
      refine (erase_hands_back h hlacks key).congr ?_
      rw [← HashMap.lookup_eq_none, hstored, Option.map_eq_none_iff]

end ArrivalMap

-- ============================================================= all edits

variable {κ ν : Type} [BEq κ] [EquivBEq κ] [Hashable κ] [LawfulHashable κ]
  [BEq ν]

/-- Every hash map at hand, and every arrival map that a run of edits
leads to, is handed back as it is by an edit that finds nothing to
change, and by no other edit. -/
theorem hashed_edits_hand_back :
    (∀ {maps : List (HashMap κ ν)} {map : HashMap κ ν} {stamp : Stamp},
      HashMap.AtHand maps → map ∈ maps → HashMap.Unused stamp maps →
      map.HandsBackItself stamp maps)
    ∧ ∀ {edits : List (Stamp × ArrivalMap.Edit κ ν)}
        {map : ArrivalMap κ ν} {stamp : Stamp},
      ArrivalMap.editAll edits = .ok map → map.entries.Lacks stamp →
      map.HandsBackItself stamp := by
  constructor
  · exact fun hmaps hmap hstamp => hmaps.hands_back hmap hstamp
  · intro edits map stamp hmap hlacks
    obtain ⟨rows, h, -⟩ :=
      Gives.of_exists (ArrivalMap.editAll_spec edits) map hmap
    exact h.hands_back hlacks

/-- A map with a null slot and an edit of it, which share the slot, and
an arrival map with one of two keys that have one hash. -/
theorem hashed_edits_hand_back_colliding :
    ∃ (filled map merged rest : HashMap Nat Nat)
        (arrivals other : ArrivalMap Nat Nat),
      HashMap.empty.edit 0 (.insertNull 5) = .ok filled
        ∧ filled.edit 1 (.insert 1 10) = .ok map
        ∧ map.merge 2 filled = .ok merged ∧ merged = map
        ∧ map.erase 2 1 = .ok rest ∧ rest.same map = false
        ∧ ArrivalMap.editAll [(0, .insert 1 10)] = .ok arrivals
        ∧ arrivals.erase 1 18446744073709551617 = .ok other
        ∧ other = arrivals := by
  obtain ⟨hmaps, harrivals⟩ :=
    hashed_edits_hand_back (κ := Nat) (ν := Nat)
  have hfill : HashMap.empty.edit 0 (.insertNull 5)
      = .ok (⟨none, 1, some ⟨0, 5⟩⟩ : HashMap Nat Nat) := rfl
  have hput : HashMap.edit ⟨none, 1, some ⟨0, 5⟩⟩ 1 (.insert 1 10)
      = .ok (⟨some ⟨1, .packed 2#32 [.entry 1 1 10]⟩, 2, some ⟨0, 5⟩⟩
        : HashMap Nat Nat) := rfl
  have hmade := hmaps (((HashMap.AtHand.start.make .empty).make
      (.edit List.mem_cons_self (by decide) hfill)).make
      (.edit List.mem_cons_self (by decide) hput))
    List.mem_cons_self (by decide : HashMap.Unused 2 _)
  obtain ⟨merged, hmerge, hsame, halike⟩ :=
    hmade.merge _ (List.mem_cons_of_mem _ List.mem_cons_self)
  obtain ⟨rest, herase, hother⟩ := (hmade.erase 1).busy
    (fun habsent => nomatch habsent (1, 10) List.mem_cons_self)
  have harrival := @harrivals [(0, .insert 1 10)] _ 1 rfl (by decide)
  obtain ⟨other, hkept, hsame', halike'⟩ :=
    harrival.erase 18446744073709551617
  refine ⟨_, _, merged, rest, _, other, hfill, hput, hmerge,
    halike (hsame.mpr ⟨rfl, .inr rfl⟩), herase, hother, rfl, hkept,
    halike' (hsame'.mpr ?_)⟩
  decide

end PersistentCollections
