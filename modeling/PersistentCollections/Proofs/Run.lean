/-
What the edits of a run answer inside their bounds.

Every edit of a run is total on the positions it names; the lemmas here
say so as equations, so no later proof has to open an edit or to argue
about `none`. The halves of a run are its run again, and neither is
longer than half of it, rounded up.
-/
import PersistentCollections.Run

namespace PersistentCollections.Run

variable {α : Type} {run items : List α} {index : Nat}

-- ================================================ edits inside bounds

/-- Putting items before a position of the run. -/
theorem insert?_eq (h : index ≤ run.length) :
    insert? run index items
      = some (run.take index ++ items ++ run.drop index) := by
  unfold insert? splice?
  rw [if_pos (by omega), Nat.add_zero]

/-- Replacing an element of the run. -/
theorem set?_eq {item : α} (h : index < run.length) :
    set? run index item = some (run.set index item) := by
  unfold set?
  rw [if_pos h]

/-- Cutting the run at a position. -/
theorem cut?_eq (h : index ≤ run.length) :
    cut? run index = some (run.take index, run.drop index) := by
  unfold cut?
  rw [if_pos h]

/-- The elements between two positions of the run. -/
theorem slice?_eq {start stop : Nat} (h : start ≤ stop)
    (hstop : stop ≤ run.length) :
    slice? run start stop
      = some ((run.drop start).take (stop - start)) := by
  unfold slice?
  rw [if_pos ⟨h, hstop⟩]

-- ============================================================= halves

/-- The halves make up the run. -/
theorem halves_append (run : List α) :
    (halves run).1 ++ (halves run).2 = run :=
  List.take_append_drop _ run

/-- Neither half is longer than half of the run, rounded up. -/
theorem halves_length (run : List α) :
    (halves run).1.length = run.length / 2
      ∧ (halves run).2.length = run.length - run.length / 2 := by
  unfold halves
  rw [List.length_take, List.length_drop]
  constructor
  · omega
  · rfl

/-- A half of a run holds nothing but elements of the run. -/
theorem mem_of_mem_halves {x : α}
    (h : x ∈ (halves run).1 ∨ x ∈ (halves run).2) : x ∈ run := by
  rw [← halves_append run, List.mem_append]
  exact h

end PersistentCollections.Run
