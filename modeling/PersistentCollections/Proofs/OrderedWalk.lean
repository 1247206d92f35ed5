/-
What a caller of a full walk over a sorted map or a sorted set is told.

The two ends of a walk go over the whole tree, each on its own trail, and
nothing but the size of the map keeps them from handing out what the
other one has handed out. The size is exact in every map that edits and
slices build, whatever the comparison answers (`Reachable.counted`), so
to a caller the walk is a queue of the entries. A walk over the keys,
over the values or over the elements of a set takes the entries of the
map and answers a part of each, so it is a queue of these parts.
-/
import PersistentCollections.Proofs.Equality

namespace PersistentCollections

variable {κ ν : Type} {cmp : κ → κ → Ordering}

namespace SortedMap

open Steps (PassesNone Queues part)

variable {map : SortedMap κ ν cmp}

/-- A map that is walked from both ends in order. -/
structure WalkedInOrder (map : SortedMap κ ν cmp) : Prop where
  /-- A walk over the entries is a queue that tells how many are left, -/
  entries : Queues Walk.next Walk.nextBack Walk.remaining map.walk map.entries
  /-- and so is one over the keys -/
  keys : Queues (part Prod.fst Walk.next) (part Prod.fst Walk.nextBack)
    Walk.remaining map.walk (map.entries.map Prod.fst)
  /-- and one over the values. -/
  values : Queues (part Prod.snd Walk.next) (part Prod.snd Walk.nextBack)
    Walk.remaining map.walk (map.entries.map Prod.snd)
  /-- Entries that no caller drops are handed out or still to come, -/
  allEntries : PassesNone Walk.next Walk.nextBack map.walk map.entries
  /-- and so are keys -/
  allKeys : PassesNone (part Prod.fst Walk.next)
    (part Prod.fst Walk.nextBack) map.walk (map.entries.map Prod.fst)
  /-- and values. -/
  allValues : PassesNone (part Prod.snd Walk.next)
    (part Prod.snd Walk.nextBack) map.walk (map.entries.map Prod.snd)
  /-- At the start all entries are to come, as many as the map counts. -/
  size : map.size = map.entries.length
  /-- If the comparison is an order, the entries are in this order, -/
  ordered : Std.TransCmp cmp → Ordered cmp map.entries
  /-- and are those that are found under their keys. -/
  found : Std.TransCmp cmp → ∀ x,
    x ∈ map.entries ↔ map.stored? x.1 = some x

/-- A walk starts with the entries to come, and with the parts of them. -/
theorem Counted.part_pends {β : Type} (h : Counted map)
    (get : κ × ν → β) :
    ∃ entries, Walk.Pends map.walk entries
      ∧ map.entries.map get = entries.map get :=
  ⟨map.entries, Walk.start_pends h, rfl⟩

/-- A walk that answers parts of the entries is a queue of these parts. -/
theorem Counted.part_queues {β : Type} (h : Counted map)
    (get : κ × ν → β) :
    Queues (part get Walk.next) (part get Walk.nextBack) Walk.remaining
      map.walk (map.entries.map get) := by
  refine (Walk.both_ends.part get).queues ?_ (h.part_pends get)
  rintro state _ ⟨entries, hpends, rfl⟩
  rw [hpends.remaining, List.length_map]

theorem Counted.part_passesNone {β : Type} (h : Counted map)
    (get : κ × ν → β) :
    PassesNone (part get Walk.next) (part get Walk.nextBack) map.walk
      (map.entries.map get) :=
  (Walk.both_ends.part get).passesNone (h.part_pends get)

variable [BEq ν]

theorem Reachable.walked_in_order (h : Reachable map) :
    WalkedInOrder map := by
  have hcounted := h.counted
  have hpends : Walk.Pends map.walk map.entries := Walk.start_pends hcounted
  constructor
  case entries => exact Walk.both_ends.queues Walk.Pends.remaining hpends
  case keys => exact hcounted.part_queues Prod.fst
  case values => exact hcounted.part_queues Prod.snd
  case allEntries => exact Walk.both_ends.passesNone hpends
  case allKeys => exact hcounted.part_passesNone Prod.fst
  case allValues => exact hcounted.part_passesNone Prod.snd
  case size => exact hcounted
  case ordered =>
      intro horder
      exact h.sound.ordered
  case found =>
      intro horder x
      rw [stored?_eq h.sound, h.sound.ordered.find?_eq_some]
      exact (and_iff_left Std.ReflCmp.compare_self).symm

end SortedMap

/-- A set that is walked from both ends in order. -/
structure SortedSet.WalkedInOrder (set : SortedSet κ cmp) : Prop where
  /-- A walk over the elements is a queue that tells how many are left. -/
  elements : Steps.Queues SortedSet.next SortedSet.nextBack
    SortedMap.Walk.remaining set.walk set.elements
  /-- Elements that no caller drops are handed out or still to come. -/
  all : Steps.PassesNone SortedSet.next SortedSet.nextBack set.walk
    set.elements
  /-- At the start all elements are to come, as many as the set counts. -/
  size : set.size = set.elements.length
  /-- If the comparison is an order, the elements are in this order. -/
  ordered : Std.TransCmp cmp →
    set.elements.Pairwise fun x y => cmp x y = .lt

/-- The elements of a set are walked as the keys of its map are. -/
theorem SortedSet.walked_of_map {set : SortedSet κ cmp}
    (h : set.map.WalkedInOrder) : set.WalkedInOrder where
  elements := h.keys
  all := h.allKeys
  size := h.size.trans (List.length_map _).symm
  ordered := fun horder => List.pairwise_map.mpr (h.ordered horder)

/-- Walks over all of a sorted map or of a sorted set are queues that are
told by any moves at their two ends: nothing is handed out at both of
them, nothing is passed over, and what is left is counted. -/
theorem ordered_walks_are_queues [BEq ν] :
    (∀ {map : SortedMap κ ν cmp}, SortedMap.Reachable map →
      map.WalkedInOrder)
    ∧ ∀ {set : SortedSet κ cmp}, SortedMap.Reachable set.map →
      set.WalkedInOrder := by
  constructor
  · intro map h
    exact h.walked_in_order
  · intro set h
    exact SortedSet.walked_of_map h.walked_in_order

/-- An order of the last digit alone, and a map out of which one entry
has been taken: the ends meet at 14, and each of them stays used up. -/
theorem ordered_walks_are_queues_mod :
    ∃ (map : SortedMap Nat Nat (compareOn (· % 10)))
        (set : SortedSet Nat (compareOn (· % 10))),
      SortedMap.erase (.ofList 0 [(14, 0), (2, 1), (31, 2), (5, 3), (8, 4)])
          1 25 = .ok map
        ∧ set = .ofList 0 [14, 2, 31, 5, 8]
        ∧ (transcript (Steps.move SortedMap.Walk.next
            SortedMap.Walk.nextBack) map.walk
            [.nextBack, .next, .nth 1, .next, .nextBack]).1
          = [some (8, 4), some (31, 2), some (14, 0), none, none]
        ∧ (transcript (Steps.move
            (Steps.part Prod.snd SortedMap.Walk.next)
            (Steps.part Prod.snd SortedMap.Walk.nextBack)) map.walk
            [.next, .nextBack]).1 = [some 2, some 4]
        ∧ (transcript (Steps.move SortedSet.next SortedSet.nextBack)
            set.walk [.next, .nextBack]).2.remaining = 3 := by
  obtain ⟨hmaps, hsets⟩ :=
    @ordered_walks_are_queues Nat Nat (compareOn (· % 10)) _
  have hmap := hmaps (.erase
    (.ofList 0 [(14, 0), (2, 1), (31, 2), (5, 3), (8, 4)])
    (show SortedMap.erase _ 1 25 = .ok _ from rfl))
  have hset := @hsets (.ofList 0 [14, 2, 31, 5, 8]) (.ofList 0 _)
  refine ⟨_, _, rfl, rfl, (hmap.entries.answers _).trans ?_,
    (hmap.values.answers _).trans ?_, (hset.elements.counts _).trans ?_⟩
  all_goals rfl

end PersistentCollections
