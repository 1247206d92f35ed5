/-
Sorted sets are sorted maps: what is known of the map holds of the set.

The elements of a set are the keys of its map (`toList_eq`), and every
edit and slice of a set is that of its map, so a set is handed back as
it is exactly when its map is.
-/
import PersistentCollections.Proofs.SortedMap.Instance
import PersistentCollections.SortedSet

namespace PersistentCollections

namespace SortedSet

open SortedMap (Reachable)
open Stamped (HandsBack Lacks)

variable {α : Type} {cmp : α → α → Ordering} {set : SortedSet α cmp}
  {stamp : Stamp}

-- ============================================================== elements

/-- The elements are the keys of the map. -/
theorem toList_eq (set : SortedSet α cmp) :
    set.toList = set.map.toList.map (·.1) :=
  Steps.toList_part Prod.fst set.map.size set.map.walk

-- ============================================================= instances

/-- Sets that tell a caller the same. -/
structure Alike (left right : SortedSet α cmp) : Prop where
  toList : left.toList = right.toList
  size : left.size = right.size

/-- When the edits and slices of a set hand back the set itself, which
then tells the same as before. -/
structure HandsBackItself (set : SortedSet α cmp) (stamp : Stamp) :
    Prop where
  /-- The element is there. -/
  insert : ∀ value, HandsBack same Alike set (.ok (set.insert stamp value))
    (∃ x ∈ set.toList, cmp value x = .eq)
  /-- The element is absent. -/
  erase : ∀ value, HandsBack same Alike set (set.erase stamp value)
    (∀ x ∈ set.toList, cmp value x ≠ .eq)
  /-- No element is before the first one or from the last one on. -/
  segment : ∀ first stop,
    HandsBack same Alike set (.ok (set.segment stamp first stop))
      (∀ x ∈ set.toList, cmp x first ≠ .lt ∧ cmp x stop = .lt)
  /-- Where the first one is not before the last one, there is no
  element. -/
  inverted : ∀ first stop, cmp first stop ≠ .lt →
    HandsBack same Alike set (.ok (set.segment stamp first stop))
      (set.toList = [])
  /-- No element is before the first one. -/
  dropBefore : ∀ first,
    HandsBack same Alike set (.ok (set.dropBefore stamp first))
      (∀ x ∈ set.toList, cmp x first ≠ .lt)
  /-- No element is from the last one on. -/
  takeBefore : ∀ stop,
    HandsBack same Alike set (.ok (set.takeBefore stamp stop))
      (∀ x ∈ set.toList, cmp x stop = .lt)

/-- An edit of a set hands back the set if that of its map does. -/
theorem hands_back_of_map {result : Except Failure (SortedMap α Unit cmp)}
    {idle : Prop}
    (h : HandsBack SortedMap.same SortedMap.Alike set.map result idle) :
    HandsBack same Alike set (SortedSet.mk <$> result) idle := by
  obtain ⟨after, hresult, hsame, halike⟩ := h
  refine ⟨⟨after⟩, ?_, hsame, fun hsame => ⟨?_, (halike hsame).size⟩⟩
  · rw [hresult]
    rfl
  · rw [toList_eq, toList_eq, (halike hsame).toList]

theorem hands_back [Std.TransCmp cmp] (h : Reachable set.map)
    (hlacks : Lacks set.map.root stamp) : HandsBackItself set stamp := by
  have hmap := h.hands_back hlacks
  constructor
  case insert =>
      intro value
      refine (hands_back_of_map (hmap.insert value ())).congr ?_
      rw [toList_eq]
      simp
  case erase =>
      intro value
      refine (hands_back_of_map (hmap.erase value)).congr ?_
      rw [toList_eq]
      simp
  case segment =>
      intro first stop
      refine (hands_back_of_map (hmap.segment first stop)).congr ?_
      rw [toList_eq, List.forall_mem_map]
  case inverted =>
      intro first stop hinverted
      have hsegment := hmap.inverted first stop hinverted
      refine (hands_back_of_map hsegment).congr ?_
      rw [toList_eq, List.map_eq_nil_iff]
  case dropBefore =>
      intro first
      refine (hands_back_of_map (hmap.dropBefore first)).congr ?_
      rw [toList_eq, List.forall_mem_map]
  case takeBefore =>
      intro stop
      refine (hands_back_of_map (hmap.takeBefore stop)).congr ?_
      rw [toList_eq, List.forall_mem_map]

end SortedSet

-- ============================================================= all edits

variable {κ ν : Type} {cmp : κ → κ → Ordering} [Std.TransCmp cmp] [BEq ν]

/-- Every sorted map and every sorted set is handed back by an edit or a
slice that finds nothing to change, and by no other one. -/
theorem sorted_edits_hand_back :
    (∀ {map : SortedMap κ ν cmp} {stamp : Stamp},
      SortedMap.Reachable map → Stamped.Lacks map.root stamp →
      map.HandsBackItself stamp)
    ∧ ∀ {set : SortedSet κ cmp} {stamp : Stamp},
      SortedMap.Reachable set.map → Stamped.Lacks set.map.root stamp →
      set.HandsBackItself stamp := by
  constructor
  · exact fun hmap hlacks => hmap.hands_back hlacks
  · exact fun hset hlacks => SortedSet.hands_back hset hlacks

/-- An order of the last digit alone, in which 24 and 34 are 14. -/
theorem sorted_edits_hand_back_mod :
    ∃ (map : SortedMap Nat Nat (compareOn (· % 10)))
        (set : SortedSet Nat (compareOn (· % 10))),
      map = .ofList 0 [(14, 0), (2, 1)] ∧ set = .ofList 0 [14, 2]
        ∧ (map.insert 1 24 0).same map = true
        ∧ (map.insert 1 24 0).toList = map.toList
        ∧ (map.merge 1 (.ofList 2 [(34, 0)])).same map = true
        ∧ (map.segment 1 1 25).same map = true
        ∧ ¬ (map.segment 1 5 5).same map = true
        ∧ (set.insert 1 24).same set = true := by
  obtain ⟨hmaps, hsets⟩ :=
    @sorted_edits_hand_back Nat Nat (compareOn (· % 10)) _ _
  have hmap := @hmaps (.ofList 0 [(14, 0), (2, 1)]) 1 (.ofList 0 _)
    (by decide)
  have hset := @hsets (.ofList 0 [14, 2]) 1 (.ofList 0 _) (by decide)
  obtain ⟨hinsert, halike⟩ := (hmap.insert 24 0).of_ok
  have hinserted := hinsert.mpr (by decide)
  exact ⟨_, _, rfl, rfl, hinserted, (halike hinserted).toList,
    (hmap.merge (.ofList 2 [(34, 0)])).of_ok.1.mpr (by decide),
    (hmap.segment 1 25).of_ok.1.mpr (by decide),
    mt (hmap.segment 5 5).of_ok.1.mp (by decide),
    (hset.insert 24).of_ok.1.mpr (by decide)⟩

end PersistentCollections
