/-
Taking a sequence apart from both ends takes its elements as a queue.

An end copies the part of a stored run that the other end has not
reached, so what is still to come lies in three pieces: what is left of
the run at the front, the elements between the ends, which no run has
copied, and what is left of the run at the back (`Drain.Holds`). Copying
moves elements from the middle piece to one at its side, and leaves
their order; an end whose own run is used up, with nothing between the
ends, goes on in the run of the other.
-/
import PersistentCollections.Proofs.Sequence.Positions
import PersistentCollections.Sequence.Drain

namespace PersistentCollections

namespace Sequence

variable {α : Type} {seq : Sequence α}

namespace Drain

variable {drain : Drain α} {values : List α}

/-- A drain of the sequence with these elements still to come. -/
structure Holds (seq : Sequence α) (drain : Drain α) (values : List α) :
    Prop where
  source : drain.source = seq
  front_le : drain.front ≤ drain.back
  back_le : drain.back ≤ seq.length
  values_eq : values = drain.frontRun
    ++ span seq.items drain.front drain.back ++ drain.backRun

theorem drain_holds (h : Sound seq) : Holds seq seq.drain seq.items where
  source := rfl
  front_le := Nat.zero_le _
  back_le := Nat.le_refl _
  values_eq := by
    show seq.items = [] ++ span seq.items 0 seq.length ++ []
    rw [← h.length_items, span_all, List.nil_append, List.append_nil]

/-- What remains is counted, in all three pieces. -/
theorem Holds.remaining_eq (h : Sound seq) (hdrain : Holds seq drain values) :
    drain.remaining = values.length := by
  have hmiddle : (span seq.items drain.front drain.back).length
      = drain.back - drain.front :=
    length_span (Nat.le_trans hdrain.back_le (Nat.le_of_eq h.length_items.symm))
  rw [hdrain.values_eq, List.length_append, List.length_append, hmiddle]
  rfl

-- ============================================================== copying

/-- The front end copies elements up to some position. -/
theorem frontPart?_spec (h : Sound seq) (hdrain : Holds seq drain values)
    (hlt : drain.front < drain.back) :
    ∃ value rest stop, drain.frontPart? = some (value :: rest, stop)
      ∧ drain.front < stop ∧ stop ≤ drain.back
      ∧ value :: rest = span seq.items drain.front stop := by
  have hinside := Nat.lt_of_lt_of_le hlt hdrain.back_le
  obtain ⟨⟨run, start⟩, hrun, hstretch, hstart, hstop⟩ :=
    runAt?_spec h hinside
  have hvalue := List.getElem?_eq_getElem (h.length_items.symm ▸ hinside)
  have hfront : drain.front < min (start + run.length) drain.back :=
    Nat.lt_min.mpr ⟨hstop, hlt⟩
  have hcopied := hstretch.window?_eq hstart (Nat.le_of_lt hfront)
    (Nat.min_le_left _ _)
  refine ⟨_, _, _, ?_, hfront, Nat.min_le_right _ _,
    (span_eq_cons hvalue hfront).symm⟩
  unfold frontPart?
  rw [hdrain.source, hrun, ← span_eq_cons hvalue hfront]
  simp only [Option.bind_eq_bind, Option.bind_some, hcopied]
  rfl

/-- The back end copies elements from some position on. -/
theorem backPart?_spec (h : Sound seq) (hdrain : Holds seq drain values)
    (hlt : drain.front < drain.back) :
    ∃ rest value first, drain.backPart? = some (rest ++ [value], first)
      ∧ drain.front ≤ first ∧ first ≤ drain.back
      ∧ rest ++ [value] = span seq.items first drain.back := by
  obtain ⟨last, hlast⟩ := Nat.exists_eq_add_one_of_ne_zero
    (Nat.ne_zero_of_lt hlt)
  have hinside : last < seq.length := by
    have := hdrain.back_le
    omega
  obtain ⟨⟨run, start⟩, hrun, hstretch, hstart, hstop⟩ :=
    runAt?_spec h hinside
  have hvalue := List.getElem?_eq_getElem (h.length_items.symm ▸ hinside)
  have hfirst : max start drain.front ≤ last :=
    Nat.max_le.mpr ⟨hstart, by omega⟩
  have hcopied := hstretch.window?_eq (Nat.le_max_left start drain.front)
    (Nat.le_succ_of_le hfirst) hstop
  refine ⟨_, _, _, ?_, Nat.le_max_right _ _, by omega,
    (hlast ▸ span_eq_concat hvalue hfirst).symm⟩
  unfold backPart?
  rw [hdrain.source, hlast, Nat.add_sub_cancel, hrun,
    ← span_eq_concat hvalue hfirst]
  simp only [Option.bind_eq_bind, Option.bind_some, hcopied]
  rfl

-- ============================================================= both ends

/-- With nothing between the ends, what is still to come has been
copied. -/
theorem met_holds {front back : Nat} (hle : front ≤ back)
    (hback : back ≤ seq.length) (hmet : back ≤ front)
    (frontRun backRun : List α) :
    Holds seq ⟨seq, front, back, frontRun, backRun⟩
      (frontRun ++ backRun) where
  source := rfl
  front_le := hle
  back_le := hback
  values_eq := by rw [span_eq_nil hmet, List.append_nil]

/-- The front end takes the first element still to come. -/
theorem next_spec (h : Sound seq) (hdrain : Holds seq drain values) :
    drain.next.1 = (Steps.pop values).1
      ∧ Holds seq drain.next.2 (Steps.pop values).2 := by
  have hpart := frontPart?_spec h hdrain
  obtain ⟨source, front, back, frontRun, backRun⟩ := drain
  obtain ⟨rfl, hle, hback, rfl⟩ := hdrain
  unfold next
  cases frontRun with
  | cons value rest => exact ⟨rfl, rfl, hle, hback, rfl⟩
  | nil =>
      dsimp only at hpart hle hback ⊢
      by_cases hmet : back ≤ front
      · rw [if_pos hmet, span_eq_nil hmet]
        cases backRun with
        | nil => exact ⟨rfl, met_holds hle hback hmet [] []⟩
        | cons value rest => exact ⟨rfl, met_holds hle hback hmet [] rest⟩
      · obtain ⟨value, rest, stop, hcopied, hstart, hstop, hspan⟩ :=
          hpart (Nat.lt_of_not_le hmet)
        rw [if_neg hmet, hcopied, ← span_append (Nat.le_of_lt hstart) hstop,
          ← hspan]
        exact ⟨rfl, rfl, hstop, hback, rfl⟩

/-- The back end takes the last one. -/
theorem nextBack_spec (h : Sound seq) (hdrain : Holds seq drain values) :
    drain.nextBack.1 = (Steps.popBack values).1
      ∧ Holds seq drain.nextBack.2 (Steps.popBack values).2 := by
  have hpart := backPart?_spec h hdrain
  obtain ⟨source, front, back, frontRun, backRun⟩ := drain
  obtain ⟨rfl, hle, hback, rfl⟩ := hdrain
  unfold nextBack
  rcases List.eq_nil_or_concat backRun with rfl | ⟨rest, value, rfl⟩
  · dsimp only [List.getLast?_nil] at hpart hle hback ⊢
    rw [List.append_nil]
    by_cases hmet : back ≤ front
    · have hholds : ∀ run : List α,
          Holds source ⟨source, front, back, run, []⟩ run := by
        intro run
        have hrun := met_holds hle hback hmet run []
        rwa [List.append_nil] at hrun
      rw [if_pos hmet, span_eq_nil hmet, List.append_nil]
      rcases List.eq_nil_or_concat frontRun with rfl | ⟨rest, value, rfl⟩
      · exact ⟨rfl, hholds []⟩
      · rw [List.concat_eq_append, List.getLast?_concat,
          List.dropLast_concat, Steps.popBack_concat]
        exact ⟨rfl, hholds rest⟩
    · obtain ⟨rest, value, first, hcopied, hstart, hstop, hspan⟩ :=
        hpart (Nat.lt_of_not_le hmet)
      rw [if_neg hmet, hcopied, ← span_append hstart hstop, ← hspan,
        ← List.append_assoc, ← List.append_assoc, Steps.popBack_concat]
      dsimp only
      rw [List.getLast?_concat, List.dropLast_concat]
      exact ⟨rfl, rfl, hstart, Nat.le_trans hstop hback, rfl⟩
  · rw [List.concat_eq_append, List.getLast?_concat, List.dropLast_concat,
      ← List.append_assoc, Steps.popBack_concat]
    exact ⟨rfl, rfl, hle, hback, rfl⟩

theorem both_ends (h : Sound seq) :
    Steps.BothEnds Drain.next Drain.nextBack (Holds seq) where
  next := next_spec h
  nextBack := nextBack_spec h

-- ====================================================== what a caller sees

/-- The ends have not passed each other or left the sequence, and as
long as there are elements between them, each end can copy a run of
some. -/
structure InBounds (drain : Drain α) : Prop where
  front_le : drain.front ≤ drain.back
  back_le : drain.back ≤ drain.source.length
  front : drain.front < drain.back →
    ∃ run stop, drain.frontPart? = some (run, stop) ∧ run ≠ []
  back : drain.front < drain.back →
    ∃ run first, drain.backPart? = some (run, first) ∧ run ≠ []

theorem Holds.inBounds (h : Sound seq) (hdrain : Holds seq drain values) :
    InBounds drain where
  front_le := hdrain.front_le
  back_le := by
    rw [hdrain.source]
    exact hdrain.back_le
  front := by
    intro hlt
    obtain ⟨value, rest, stop, hcopied, -⟩ := frontPart?_spec h hdrain hlt
    exact ⟨_, stop, hcopied, List.cons_ne_nil value rest⟩
  back := by
    intro hlt
    obtain ⟨rest, value, first, hcopied, -⟩ := backPart?_spec h hdrain hlt
    exact ⟨_, first, hcopied, List.concat_ne_nil value rest⟩

end Drain

/-- Any moves at the two ends of a drain are answered as by a queue of
the elements, and what the queue has left is counted. When nothing is
left both ends answer none from then on. No end copies outside a stored
run, or passes the other one. -/
theorem Reachable.drain_is_queue (h : Reachable seq) :
    Steps.Queues Drain.next Drain.nextBack Drain.remaining seq.drain
        seq.contents
      ∧ ∀ moves : List Steps.Move,
        (transcript (Steps.move Drain.next Drain.nextBack) seq.drain
          moves).2.InBounds := by
  have hsound := h.sound
  have hends := Drain.both_ends hsound
  have hstart := Drain.drain_holds hsound
  rw [hsound.contents_eq]
  refine ⟨hends.queues (fun hholds => hholds.remaining_eq hsound) hstart, ?_⟩
  exact fun moves => (hends.run hstart moves).2.inBounds hsound

/-- The front end drops the focus, which is 500 alone, and two leaves,
and gets into the run that the back end has copied. -/
theorem drain_is_queue_seventy :
    let step := Steps.move Drain.next Drain.nextBack
    ∃ built seq : Sequence Nat, ofList (List.range 70) = .ok built
      ∧ built.insert 3 500 = .ok seq
      ∧ (let drained := transcript step seq.drain
          [.next, .nextBack, .nth 66, .nextBack, .next]
        drained.1 = [some 0, some 69, some 66, some 68, some 67]
          ∧ drained.2.remaining = 0
          ∧ (transcript step drained.2 [.nextBack, .nth 1, .next]).1
            = [none, none, none]) := by
  intro step
  obtain ⟨built, hbuilt, hsound, hitems⟩ :=
    ofList_goes (by decide : (List.range 70).length ≤ crowd)
  obtain ⟨hread, hlen⟩ := hsound.reads hitems
  rw [List.length_range] at hlen
  have hroom : ¬ crowd ≤ built.length := by
    rw [hlen]
    decide
  obtain ⟨seq, hinsert, hcontents, -⟩ :=
    ((insert_edits hsound 3 500).admits hroom).goes (by omega)
  obtain ⟨hqueue, -⟩ :=
    Reachable.drain_is_queue (.insert (.ofList hbuilt) hinsert)
  rw [hcontents, hread] at hqueue
  have hanswers :=
    hqueue.answers [.next, .nextBack, .nth 66, .nextBack, .next]
  have hnone := hqueue.counts [.next, .nextBack, .nth 66, .nextBack, .next]
  change _ = 0 at hnone
  exact ⟨built, seq, hbuilt, hinsert, hanswers.trans rfl, hnone,
    hqueue.ends _ hnone _⟩

end Sequence

end PersistentCollections
