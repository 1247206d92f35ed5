/-
Walks and cursors, as a caller sees them.

A cursor is a place between two elements: all that it answers and
reports follows from the number of elements before it, and a turn in
either direction passes over the element on that side (`turnList`). The
run that it has met last is a stretch of the elements wherever the
cursor turns next (`Cursor.Holds`), so it may read from it or ask for
another, and either way finds the element at its place.
-/
import PersistentCollections.Proofs.Sequence.Positions
import PersistentCollections.Sequence.Cursor

namespace PersistentCollections

namespace Sequence

variable {α : Type} {seq : Sequence α}

-- ================================================================ walks

namespace Walk

/-- The ends have not passed each other or left the sequence, and as
long as there are elements between them, each end finds the next one. -/
structure InBounds (walk : Walk α) : Prop where
  front_le : walk.front ≤ walk.back
  back_le : walk.back ≤ walk.source.length
  front : walk.front < walk.back →
    (walk.source.fetch? walk.frontRun walk.front).isSome
  back : walk.front < walk.back →
    (walk.source.fetch? walk.backRun (walk.back - 1)).isSome

end Walk

/-- An element is found in bounds, whatever run has been met last. -/
theorem fetch?_isSome (h : Sound seq) {run : List α × Nat}
    (hrun : Stretch seq.items run) {index : Nat} (hindex : index < seq.length) :
    (seq.fetch? run index).isSome := by
  obtain ⟨value, next, hfetch, -⟩ := fetch?_spec h hrun hindex
  rw [hfetch]
  rfl

theorem Walk.Holds.inBounds (h : Sound seq) {walk : Walk α}
    {ahead : List α} (hwalk : Walk.Holds seq walk ahead) :
    walk.InBounds := by
  obtain ⟨rfl, hfront, hback, hle, hbound, -⟩ := hwalk
  refine ⟨hle, hbound, fun hlt => ?_, fun hlt => ?_⟩
  · exact fetch?_isSome h hfront (by omega)
  · exact fetch?_isSome h hback (by omega)

-- ============================================================== cursors

namespace Cursor

/-- What a caller may ask of a cursor that moves it. -/
inductive Turn where
  /-- Pass over the element behind the cursor. -/
  | next
  /-- Pass back over the element before it. -/
  | previous

/-- What a cursor answers to a turn, and the cursor after it. -/
def turn (cursor : Cursor α) : Turn → Option α × Cursor α
  | .next => cursor.next
  | .previous => cursor.previous

end Cursor

/-- The element that a turn passes over at a place in a list, which is
the number of elements before it, and the place behind the turn. There
is none at the end of the list or at its start, and the place stays. -/
def turnList (values : List α) (place : Nat) :
    Cursor.Turn → Option α × Nat
  | .next =>
    match values[place]? with
    | some value => (some value, place + 1)
    | none => (none, place)
  | .previous =>
    match place with
    | 0 => (none, 0)
    | before + 1 => (values[before]?, before)

namespace Cursor

variable {cursor : Cursor α} {place : Nat}

/-- A cursor that stands at a place of the sequence. -/
structure Holds (seq : Sequence α) (cursor : Cursor α) (place : Nat) :
    Prop where
  source : cursor.source = seq
  run : Stretch seq.items cursor.run
  position : cursor.position = place
  place_le : place ≤ seq.length

theorem next_spec (h : Sound seq) (hcursor : Holds seq cursor place) :
    cursor.next.1 = (turnList seq.items place .next).1
      ∧ Holds seq cursor.next.2 (turnList seq.items place .next).2 := by
  obtain ⟨source, position, run⟩ := cursor
  obtain ⟨rfl, hrun, rfl, hle⟩ := hcursor
  unfold next hasNext turnList
  dsimp only at hrun hle ⊢
  by_cases hend : position < source.length
  · obtain ⟨value, found, hfetch, hitem, hfound⟩ := fetch?_spec h hrun hend
    rw [if_pos (decide_eq_true hend), hfetch, hitem]
    exact ⟨rfl, rfl, hfound, rfl, hend⟩
  · have hnone : source.items[position]? = none :=
      List.getElem?_eq_none
        (Nat.le_trans (Nat.le_of_eq h.length_items) (Nat.le_of_not_lt hend))
    rw [if_neg (by simpa using hend), hnone]
    exact ⟨rfl, rfl, hrun, rfl, hle⟩

theorem previous_spec (h : Sound seq) (hcursor : Holds seq cursor place) :
    cursor.previous.1 = (turnList seq.items place .previous).1
      ∧ Holds seq cursor.previous.2
          (turnList seq.items place .previous).2 := by
  obtain ⟨source, position, run⟩ := cursor
  obtain ⟨rfl, hrun, rfl, hle⟩ := hcursor
  cases position with
  | zero => exact ⟨rfl, rfl, hrun, rfl, hle⟩
  | succ before =>
      obtain ⟨value, found, hfetch, hitem, hfound⟩ :=
        fetch?_spec h hrun (show before < source.length from hle)
      unfold previous hasPrevious turnList
      dsimp only
      rw [if_pos (decide_eq_true (Nat.succ_pos before)),
        Nat.add_sub_cancel, hfetch, hitem]
      exact ⟨rfl, rfl, hfound, rfl, Nat.le_of_succ_le hle⟩

/-- A turn passes over the element beside the cursor. -/
theorem turn_spec (h : Sound seq) (hcursor : Holds seq cursor place)
    (asked : Turn) :
    (cursor.turn asked).1 = (turnList seq.items place asked).1
      ∧ Holds seq (cursor.turn asked).2
          (turnList seq.items place asked).2 := by
  cases asked with
  | next => exact next_spec h hcursor
  | previous => exact previous_spec h hcursor

/-- Turns, one after the other, are answered as by the list. -/
theorem turns_spec (h : Sound seq) (hcursor : Holds seq cursor place)
    (turns : List Turn) :
    (transcript turn cursor turns).1
        = (transcript (turnList seq.items) place turns).1
      ∧ Holds seq (transcript turn cursor turns).2
          (transcript (turnList seq.items) place turns).2 := by
  have hturns : _ = (transcript (turnList seq.items) place
        (turns.map id)).1.map id ∧ Holds seq _ _ :=
    transcript_lockstep (R := Holds seq) (turn_spec h) turns hcursor
  rwa [List.map_id, List.map_id] at hturns

-- ============================================================== reports

/-- What a cursor reports at a place in a list, and that it finds the
elements beside it. -/
structure StandsAt (cursor : Cursor α) (length place : Nat) : Prop where
  place_le : place ≤ length
  nextIndex : cursor.nextIndex = place
  previousIndex : cursor.previousIndex
    = if place = 0 then none else some (place - 1)
  hasNext : cursor.hasNext = decide (place < length)
  hasPrevious : cursor.hasPrevious = decide (0 < place)
  after : place < length → (cursor.source.fetch? cursor.run place).isSome
  before : 0 < place →
    (cursor.source.fetch? cursor.run (place - 1)).isSome

/-- A cursor that answers turns, and reports where it stands after them,
as a place in a list does. -/
structure StartsAt (cursor : Cursor α) (values : List α) (place : Nat) :
    Prop where
  answers : ∀ turns : List Turn, (transcript turn cursor turns).1
    = (transcript (turnList values) place turns).1
  stands : ∀ turns : List Turn,
    (transcript turn cursor turns).2.StandsAt values.length
      (transcript (turnList values) place turns).2

theorem Holds.standsAt (h : Sound seq) (hcursor : Holds seq cursor place) :
    cursor.StandsAt seq.length place := by
  obtain ⟨source, position, run⟩ := cursor
  obtain ⟨rfl, hrun, rfl, hle⟩ := hcursor
  refine ⟨hle, rfl, rfl, rfl, rfl, fun hlt => ?_, fun hlt => ?_⟩
  · exact fetch?_isSome h hrun hlt
  · exact fetch?_isSome h hrun
      (Nat.lt_of_lt_of_le (Nat.sub_one_lt_of_lt hlt) hle)

end Cursor

-- ===================================================== what a caller sees

/-- Every place between two elements and at either end can be asked for,
and turns are answered from there as from that place in the list. -/
theorem cursorAt_admits (h : Sound seq) (index : Nat) :
    Admits (seq.cursorAt index) (index ≤ seq.length)
      (.outOfBounds index seq.length)
      fun cursor => cursor.StartsAt seq.contents index where
  goes := by
    intro hindex
    have hstart : Cursor.Holds seq ⟨seq, index, ([], 0)⟩ index :=
      ⟨rfl, stretch_nil _, rfl, hindex⟩
    have hturns := Cursor.turns_spec h hstart
    rw [h.contents_eq]
    refine ⟨_, if_neg (Nat.not_lt_of_le hindex),
      fun turns => (hturns turns).1, fun turns => ?_⟩
    rw [h.length_items]
    exact (hturns turns).2.standsAt h
  refused := fun hindex => if_pos (Nat.lt_of_not_le hindex)

/-- Any moves at the two ends of a walk over a sequence are answered as
by a queue of its elements, and what the queue has left is counted. A
cursor is given for each place between two elements or at either end and
for no other; it answers turns, and reports where it stands, as that
place in the list of the elements does. No step reads outside a run. -/
theorem Reachable.walks_and_cursors (h : Reachable seq) :
    Steps.Queues Walk.next Walk.nextBack Walk.remaining seq.walk
        seq.contents
      ∧ (∀ moves : List Steps.Move,
        (transcript (Steps.move Walk.next Walk.nextBack) seq.walk
          moves).2.InBounds)
      ∧ ∀ index : Nat, Admits (seq.cursorAt index) (index ≤ seq.length)
        (.outOfBounds index seq.length)
        fun cursor => cursor.StartsAt seq.contents index := by
  have hsound := h.sound
  have hends := Walk.both_ends hsound
  have hstart := walk_holds hsound
  refine ⟨?_, ?_, cursorAt_admits hsound⟩
  · rw [hsound.contents_eq]
    exact hends.queues (fun hholds => hholds.remaining_eq hsound) hstart
  · exact fun moves => (hends.run hstart moves).2.inBounds hsound

/-- The focus, which is 500 alone, divides a leaf in two, and both ends
and the cursor pass over it. -/
theorem walks_and_cursors_seventy :
    let step := Steps.move Walk.next Walk.nextBack
    ∃ built seq : Sequence Nat, ofList (List.range 70) = .ok built
      ∧ built.insert 3 500 = .ok seq
      ∧ (let walked := transcript step seq.walk
          [.nth 2, .next, .next, .nextBack, .nth 64]
        walked.1 = [some 2, some 500, some 3, some 69, some 68]
          ∧ walked.2.remaining = 0
          ∧ (transcript step walked.2 [.nextBack, .next]).1 = [none, none])
      ∧ (∃ cursor, seq.cursorAt 4 = .ok cursor
        ∧ (transcript Cursor.turn cursor
            [.previous, .previous, .next, .next, .next]).1
          = [some 500, some 2, some 2, some 500, some 3]
        ∧ (transcript Cursor.turn cursor
            [.previous, .previous]).2.StandsAt 71 2)
      ∧ seq.cursorAt 72 = .error (.outOfBounds 72 71) := by
  intro step
  obtain ⟨built, hbuilt, hsound, hitems⟩ :=
    ofList_goes (by decide : (List.range 70).length ≤ crowd)
  obtain ⟨hread, hlen⟩ := hsound.reads hitems
  rw [List.length_range] at hlen
  have hroom : ¬ crowd ≤ built.length := by
    rw [hlen]
    decide
  obtain ⟨seq, hinsert, hcontents, hlength⟩ :=
    ((insert_edits hsound 3 500).admits hroom).goes (by omega)
  obtain ⟨hqueue, -, hcursors⟩ :=
    Reachable.walks_and_cursors (.insert (.ofList hbuilt) hinsert)
  rw [hcontents, hread] at hqueue hcursors
  rw [hlength, hlen] at hcursors
  have hanswers := hqueue.answers [.nth 2, .next, .next, .nextBack, .nth 64]
  have hnone := hqueue.counts [.nth 2, .next, .next, .nextBack, .nth 64]
  change _ = 0 at hnone
  obtain ⟨cursor, hcursor, hstarts⟩ := (hcursors 4).goes (by decide)
  have hpassed :=
    hstarts.answers [.previous, .previous, .next, .next, .next]
  have hstands := hstarts.stands [.previous, .previous]
  refine ⟨built, seq, hbuilt, hinsert, ⟨?_, hnone, ?_⟩,
    ⟨cursor, hcursor, ?_, hstands⟩, (hcursors 72).refused (by decide)⟩
  · exact hanswers.trans rfl
  · exact hqueue.ends _ hnone _
  · exact hpassed.trans (by decide)

end Sequence

end PersistentCollections
