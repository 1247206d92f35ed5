/-
What a caller of a range of a sorted map is told.

The two ends of a range know of each other only the outermost keys and
the keys they have taken last, and one of them may find the range used
up when the other one has not been asked again. To a caller none of this
shows: whatever the bounds are, the range is a queue of the entries
inside them, from which either end takes.
-/
import PersistentCollections.Proofs.SortedMap.Reachable

namespace PersistentCollections

namespace SortedMap

variable {κ ν : Type} {cmp : κ → κ → Ordering} [Std.TransCmp cmp] [BEq ν]
  {map : SortedMap κ ν cmp}

/-- Any moves at the two ends of a range are answered as by a queue of
the entries inside the bounds, which are in order. No entry is handed
out twice, and when the queue is empty both ends answer none from then
on. -/
theorem Reachable.range_is_queue (h : Reachable map)
    (lower upper : Bound κ) (moves : List Steps.Move) :
    let step := Steps.move (Range.next cmp) (Range.nextBack cmp)
    let inside := within cmp lower upper map.entries
    let walked := transcript step (map.range lower upper) moves
    let queued := transcript Steps.moveList inside moves
    Ordered cmp inside ∧ walked.1 = queued.1
      ∧ (walked.1.filterMap id).Subperm inside
      ∧ (queued.2 = [] → ∀ later : List Steps.Move,
          (transcript step walked.2 later).1 = later.map fun _ => none) := by
  intro step inside walked queued
  have hordered := h.sound.ordered
  refine ⟨hordered.filter _, ?_⟩
  exact Range.both_ends.queue (Range.start_pends hordered lower upper) moves

/-- An order of the last digit alone. The bounds are no stored keys, and
leave 31 out below and 8 above; both ends meet at 14, and find nothing
behind it. Inverted bounds leave nothing. -/
theorem range_is_queue_mod :
    let step := Steps.move (Range.next (compareOn (· % 10)))
      (Range.nextBack (compareOn (· % 10)))
    ∃ map : SortedMap Nat Nat (compareOn (· % 10)),
      map = .ofList 0 [(14, 0), (2, 1), (31, 2), (5, 3), (8, 4)]
        ∧ ∃ range, transcript step (map.range (.excluded 41) (.included 26))
              [.next, .nextBack, .next]
            = ([some (2, 1), some (5, 3), some (14, 0)], range)
          ∧ (transcript step range [.nextBack, .next, .nextBack]).1
            = [none, none, none]
        ∧ (transcript step (map.range (.included 5) (.excluded 2))
            [.nextBack, .next]).1 = [none, none] := by
  intro step
  have hqueue := @Reachable.range_is_queue Nat Nat (compareOn (· % 10)) _ _
    (.ofList 0 [(14, 0), (2, 1), (31, 2), (5, 3), (8, 4)]) (.ofList 0 _)
  obtain ⟨-, hanswers, -, hdone⟩ :=
    hqueue (.excluded 41) (.included 26) [.next, .nextBack, .next]
  obtain ⟨-, hinverted, -⟩ :=
    hqueue (.included 5) (.excluded 2) [.nextBack, .next]
  refine ⟨_, rfl, _, Prod.ext (hanswers.trans rfl) rfl, ?_, ?_⟩
  · exact hdone rfl [.nextBack, .next, .nextBack]
  · exact hinverted.trans rfl

end SortedMap

end PersistentCollections
