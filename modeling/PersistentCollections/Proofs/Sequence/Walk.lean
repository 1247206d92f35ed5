/-
A walk over a sequence is a queue of its elements.

A run that an end has met is a stretch of the elements, at the position
that goes with it (`Stretch`), whatever the focus does to the leaf it
comes from: a leaf that the focus divides gives the part on one side,
and behind the focus positions are moved on by its length. So an element
found in a run is the element at its position (`fetch?_spec`). What is
still to come are the elements between the positions of the two ends
(`span`); each end takes the one at its own position, and the span is
shorter by that one.
-/
import PersistentCollections.Proofs.BothEnds
import PersistentCollections.Proofs.Sequence.Content

namespace PersistentCollections

namespace Sequence

variable {α : Type}

-- ============================================================ stretches

/-- A run that stands in a list at a position. -/
def Stretch (items : List α) (run : List α × Nat) : Prop :=
  ∃ before after, items = before ++ run.1 ++ after ∧ run.2 = before.length

theorem stretch_nil (items : List α) : Stretch items ([], 0) :=
  ⟨[], items, rfl, rfl⟩

/-- The elements of a stretch are those of the list. -/
theorem Stretch.getElem? {items : List α} {run : List α × Nat}
    (h : Stretch items run) {index : Nat} (hstart : run.2 ≤ index)
    (hstop : index < run.2 + run.1.length) :
    run.1[index - run.2]? = items[index]? := by
  obtain ⟨before, after, rfl, hrun⟩ := h
  rw [hrun] at hstart hstop ⊢
  rw [List.append_assoc, List.getElem?_append_right hstart,
    List.getElem?_append_left (by omega)]

/-- A stretch that reaches over the end of the first of two lists has a
part in it. -/
theorem stretch_left {before after values : List α} {start : Nat}
    (h : Stretch (before ++ after) (values, start))
    (hstart : start ≤ before.length) :
    Stretch before (values.take (before.length - start), start) := by
  obtain ⟨left, right, heq, hlen⟩ := h
  change start = left.length at hlen
  change before ++ after = left ++ values ++ right at heq
  subst hlen
  have htake := congrArg (List.take before.length) heq
  obtain ⟨k, hk⟩ := Nat.exists_eq_add_of_le hstart
  rw [List.take_left, hk, List.append_assoc, List.take_length_add_append,
    List.take_append] at htake
  rw [hk, Nat.add_sub_cancel_left]
  exact ⟨left, right.take (k - values.length),
    htake.trans (List.append_assoc _ _ _).symm, rfl⟩

/-- A stretch that reaches over the start of the second of two lists has
a part in it. -/
theorem stretch_right {before after values : List α} {start : Nat}
    (h : Stretch (before ++ after) (values, start))
    (hstop : before.length ≤ start + values.length) :
    Stretch after (values.drop (before.length - start),
      start - before.length) := by
  obtain ⟨left, right, heq, hlen⟩ := h
  change start = left.length at hlen
  change before ++ after = left ++ values ++ right at heq
  subst hlen
  have hdrop := congrArg (List.drop before.length) heq
  rw [List.drop_left, List.append_assoc, List.drop_append,
    List.drop_append_of_le_length (by omega), ← List.append_assoc] at hdrop
  exact ⟨left.drop before.length, right, hdrop, List.length_drop.symm⟩

theorem Stretch.append_right {items : List α} {run : List α × Nat}
    (h : Stretch items run) (more : List α) :
    Stretch (items ++ more) run := by
  obtain ⟨before, after, rfl, hrun⟩ := h
  exact ⟨before, after ++ more, by simp only [List.append_assoc], hrun⟩

theorem Stretch.append_left {items values : List α} {start : Nat}
    (h : Stretch items (values, start)) (more : List α) :
    Stretch (more ++ items) (values, more.length + start) := by
  obtain ⟨before, after, rfl, rfl⟩ := h
  refine ⟨more ++ before, after, by simp only [List.append_assoc], ?_⟩
  rw [List.length_append]

-- ================================================================ spans

/-- The elements at positions `front` up to but without `back`. -/
def span (items : List α) (front back : Nat) : List α :=
  (items.take back).drop front

section

variable {items : List α} {front middle back : Nat} {value : α}

theorem span_eq_nil (h : back ≤ front) : span items front back = [] :=
  List.drop_eq_nil_of_le (Nat.le_trans (List.length_take_le _ _) h)

theorem span_all (items : List α) : span items 0 items.length = items :=
  List.take_length

theorem length_span (hback : back ≤ items.length) :
    (span items front back).length = back - front := by
  unfold span
  rw [List.length_drop, List.length_take, Nat.min_eq_left hback]

/-- A span is cut at any position in it. -/
theorem span_append (hfront : front ≤ middle) (hback : middle ≤ back) :
    span items front middle ++ span items middle back
      = span items front back := by
  have htake : items.take middle = (items.take back).take middle := by
    rw [List.take_take, Nat.min_eq_left hback]
  have hdrop : (items.take back).drop middle
      = ((items.take back).drop front).drop (middle - front) := by
    rw [List.drop_drop, Nat.add_sub_cancel' hfront]
  unfold span
  rw [htake, List.drop_take, hdrop, List.take_append_drop]

/-- The last element of a span is the one before its back. -/
theorem span_eq_concat (hvalue : items[middle]? = some value)
    (hfront : front ≤ middle) :
    span items front (middle + 1) = span items front middle ++ [value] := by
  obtain ⟨hmiddle, -⟩ := List.getElem?_eq_some_iff.mp hvalue
  have hlength : (items.take middle).length = middle :=
    List.length_take_of_le (Nat.le_of_lt hmiddle)
  unfold span
  rw [List.take_add_one, hvalue, List.drop_append_of_le_length
    (Nat.le_trans hfront (Nat.le_of_eq hlength.symm))]
  rfl

/-- The first element of a span is the one at its front. -/
theorem span_eq_cons (hvalue : items[front]? = some value)
    (hback : front < back) :
    span items front back = value :: span items (front + 1) back := by
  rw [← span_append (Nat.le_succ front) hback,
    span_eq_concat hvalue (Nat.le_refl front), span_eq_nil (Nat.le_refl _)]
  rfl

/-- A part of a stretch is a span. -/
theorem Stretch.window?_eq {run : List α × Nat} (h : Stretch items run)
    (hstart : run.2 ≤ front) (hle : front ≤ back)
    (hstop : back ≤ run.2 + run.1.length) :
    Run.window? run.1 run.2 front back = some (span items front back) := by
  obtain ⟨before, after, rfl, hrun⟩ := h
  rw [hrun] at hstart hstop ⊢
  obtain ⟨skipped, rfl⟩ := Nat.exists_eq_add_of_le hstart
  obtain ⟨taken, rfl⟩ := Nat.exists_eq_add_of_le
    (Nat.le_trans hstart hle)
  unfold Run.window? span
  rw [if_pos hstart, Run.slice?_eq (by omega) (by omega),
    take_middle (by omega), List.drop_length_add_append, List.drop_take,
    Nat.add_sub_cancel_left, Nat.add_sub_cancel_left]

end

-- ================================================================= runs

variable {seq : Sequence α} {index : Nat}

/-- The leaf at a position outside the focus is a stretch of the tree. -/
theorem leaf_stretch (h : Sound seq)
    (hindex : seq.treeIndex index < seq.root.elements.length) :
    ∃ values offset,
      seq.root.leafAround? (seq.treeIndex index) = some (values, offset)
        ∧ offset < values.length ∧ offset ≤ seq.treeIndex index
        ∧ Stretch seq.root.elements
            (values, seq.treeIndex index - offset) := by
  obtain ⟨height, hsound⟩ := h.root_sound hindex
  obtain ⟨before, values, after, offset, hleaf, helem, heq, hoff⟩ :=
    Node.leafAround?_spec hsound hindex
  refine ⟨values, offset, hleaf, hoff, by omega, before, after, helem, ?_⟩
  show seq.treeIndex index - offset = before.length
  omega

/-- The stored run at a position is a stretch of the elements that
covers the position. -/
theorem runAt?_spec (h : Sound seq) (hindex : index < seq.length) :
    ∃ run, seq.runAt? index = some run ∧ Stretch seq.items run
      ∧ run.2 ≤ index ∧ index < run.2 + run.1.length := by
  obtain ⟨before, after, hroot, hstart, hitems, hlen⟩ := h.split
  rw [hitems]
  unfold runAt? inFocus focusEnd
  simp only [Bool.and_eq_true, decide_eq_true_eq]
  by_cases hfocus : seq.focusStart ≤ index
      ∧ index < seq.focusStart + seq.focus.length
  · rw [if_pos hfocus]
    exact ⟨(seq.focus, seq.focusStart), rfl, ⟨before, after, rfl, hstart⟩,
      hfocus⟩
  rw [if_neg hfocus]
  have hinside : seq.treeIndex index < seq.root.elements.length := by
    unfold treeIndex
    rw [hroot, List.length_append]
    split <;> omega
  obtain ⟨values, offset, hleaf, hoff, hle, hstretch⟩ :=
    leaf_stretch h hinside
  rw [hroot] at hstretch
  rw [hleaf]
  simp only [Option.bind_eq_bind, Option.bind_some]
  by_cases hbefore : index < seq.focusStart
  · have htree : seq.treeIndex index = index := by
      unfold treeIndex
      rw [if_pos hbefore]
    rw [htree] at hstretch hle ⊢
    rw [if_pos hbefore, Run.slice?_eq (Nat.zero_le _) (by omega),
      List.drop_zero]
    refine ⟨_, rfl, ?_, Nat.sub_le _ _, ?_⟩
    · have hpart := stretch_left hstretch (by omega)
      have hsame : values.take (min (index - offset + values.length)
            seq.focusStart - (index - offset) - 0)
          = values.take (before.length - (index - offset)) := by
        rw [hstart, List.take_eq_take_iff]
        omega
      rw [hsame]
      exact (hpart.append_right _).append_right _
    · rw [List.length_take]
      show index < index - offset + _
      omega
  · have htree : seq.treeIndex index = index - seq.focus.length := by
      unfold treeIndex
      rw [if_neg hbefore]
    rw [htree] at hstretch hle ⊢
    have hcut : max (index - seq.focus.length - offset) seq.focusStart
          - (index - seq.focus.length - offset)
        = before.length - (index - seq.focus.length - offset) := by omega
    rw [if_neg hbefore, Run.slice?_eq (by omega) (Nat.le_refl _), hcut,
      List.take_of_length_le (Nat.le_of_eq List.length_drop)]
    refine ⟨_, rfl, ?_, ?_, ?_⟩
    · have hpart := (stretch_right hstretch (by omega)).append_left
        (before ++ seq.focus)
      rw [List.length_append] at hpart
      have hplace : max (index - seq.focus.length - offset) seq.focusStart
            + seq.focus.length
          = before.length + seq.focus.length
            + (index - seq.focus.length - offset - before.length) := by
        omega
      rw [hplace]
      exact hpart
    · show max _ _ + _ ≤ index
      omega
    · rw [List.length_drop]
      show index < max _ _ + _ + _
      omega

/-- The element at a position, found in the run at hand or in the stored
one; either way the run answered is a stretch again. -/
theorem fetch?_spec (h : Sound seq) {run : List α × Nat}
    (hrun : Stretch seq.items run) (hindex : index < seq.length) :
    ∃ value next, seq.fetch? run index = some (value, next)
      ∧ seq.items[index]? = some value ∧ Stretch seq.items next := by
  have hread : ∀ {found : List α × Nat}, Stretch seq.items found →
      found.2 ≤ index → index < found.2 + found.1.length →
      ∃ value, found.1[index - found.2]? = some value
        ∧ seq.items[index]? = some value := by
    intro found hfound hle hlt
    have hat : index - found.2 < found.1.length := by omega
    refine ⟨found.1[index - found.2], List.getElem?_eq_getElem hat, ?_⟩
    rw [← hfound.getElem? hle hlt]
    exact List.getElem?_eq_getElem hat
  unfold fetch?
  simp only [Bool.and_eq_true, decide_eq_true_eq]
  by_cases hcovers : run.2 ≤ index ∧ index < run.2 + run.1.length
  · obtain ⟨value, hvalue, hitem⟩ := hread hrun hcovers.1 hcovers.2
    refine ⟨value, run, ?_, hitem, hrun⟩
    rw [if_pos hcovers]
    simp only [Option.bind_eq_bind, Option.bind_some, hvalue]
    rfl
  · obtain ⟨next, hnext, hstretch, hle, hlt⟩ := runAt?_spec h hindex
    obtain ⟨value, hvalue, hitem⟩ := hread hstretch hle hlt
    refine ⟨value, next, ?_, hitem, hstretch⟩
    rw [if_neg hcovers, hnext]
    simp only [Option.bind_eq_bind, Option.bind_some, hvalue]
    rfl

-- ============================================================= the walk

/-- A walk over the sequence with these elements still to come. -/
structure Walk.Holds (seq : Sequence α) (walk : Walk α)
    (ahead : List α) : Prop where
  source : walk.source = seq
  front : Stretch seq.items walk.frontRun
  back : Stretch seq.items walk.backRun
  front_le : walk.front ≤ walk.back
  back_le : walk.back ≤ seq.length
  ahead_eq : ahead = span seq.items walk.front walk.back

theorem walk_holds (h : Sound seq) : Walk.Holds seq seq.walk seq.items where
  source := rfl
  front := stretch_nil _
  back := stretch_nil _
  front_le := Nat.zero_le _
  back_le := Nat.le_refl _
  ahead_eq := by
    show seq.items = span seq.items 0 seq.length
    rw [← h.length_items, span_all]

/-- What remains is counted. -/
theorem Walk.Holds.remaining_eq {walk : Walk α} {ahead : List α}
    (h : Sound seq) (hwalk : Walk.Holds seq walk ahead) :
    walk.remaining = ahead.length := by
  rw [hwalk.ahead_eq, length_span (by
    rw [h.length_items]
    exact hwalk.back_le)]
  rfl

/-- Nothing is taken from a walk whose ends have met. -/
theorem Walk.step_done {walk : Walk α} (h : walk.back ≤ walk.front) :
    walk.next = (none, walk) ∧ walk.nextBack = (none, walk) := by
  unfold next nextBack
  exact ⟨if_pos h, if_pos h⟩

/-- Each end takes the element at its position, and the other one leaves
it out. -/
theorem Walk.both_ends (h : Sound seq) :
    Steps.BothEnds Walk.next Walk.nextBack (Walk.Holds seq) where
  next := by
    intro walk ahead hwalk
    have hahead := hwalk.ahead_eq
    by_cases hmet : walk.back ≤ walk.front
    · rw [span_eq_nil hmet] at hahead
      subst hahead
      rw [(step_done hmet).1]
      exact ⟨rfl, hwalk⟩
    · have hlt : walk.front < walk.back := Nat.lt_of_not_le hmet
      obtain ⟨value, run, hfetch, hitem, hrun⟩ := fetch?_spec h hwalk.front
        (Nat.lt_of_lt_of_le hlt hwalk.back_le)
      rw [span_eq_cons hitem hlt] at hahead
      subst hahead
      unfold next
      rw [if_neg hmet, hwalk.source, hfetch]
      exact ⟨rfl, rfl, hrun, hwalk.back, hlt, hwalk.back_le, rfl⟩
  nextBack := by
    intro walk ahead hwalk
    have hahead := hwalk.ahead_eq
    by_cases hmet : walk.back ≤ walk.front
    · rw [span_eq_nil hmet] at hahead
      subst hahead
      rw [(step_done hmet).2]
      exact ⟨rfl, hwalk⟩
    · have hlt : walk.front < walk.back := Nat.lt_of_not_le hmet
      have hback : walk.back - 1 + 1 = walk.back :=
        Nat.sub_add_cancel (Nat.one_le_of_lt hlt)
      have hfront : walk.front ≤ walk.back - 1 := Nat.le_sub_one_of_lt hlt
      have hinside : walk.back - 1 < seq.length := by
        have := hwalk.back_le
        omega
      obtain ⟨value, run, hfetch, hitem, hrun⟩ :=
        fetch?_spec h hwalk.back hinside
      rw [← hback, span_eq_concat hitem hfront] at hahead
      subst hahead
      unfold nextBack
      rw [if_neg hmet, hwalk.source, hfetch, Steps.popBack_concat]
      exact ⟨rfl, rfl, hwalk.front, hrun, hfront, Nat.le_of_lt hinside, rfl⟩

/-- The elements that the walk collects. -/
theorem toList_eq (h : Sound seq) : seq.toList = seq.items := by
  exact Steps.toList_eq (Walk.both_ends h).follows (walk_holds h)
    (Nat.le_of_eq h.length_items)

end Sequence

end PersistentCollections
