/-
Taking the elements out of a sequence from both ends.

A drain copies one stored run at a time: each end takes the part of the
next run that the other end has not reached, and hands it out element
by element. When no position is left between the ends, an end whose own
run is used up goes on with what the other end has copied.
-/
import PersistentCollections.Sequence.Basic
import PersistentCollections.Steps

namespace PersistentCollections.Sequence

variable {α : Type}

/-- A sequence being taken apart from both ends. -/
structure Drain (α : Type) where
  /-- The sequence the elements come from. -/
  source : Sequence α
  /-- The first position that no run has copied. -/
  front : Nat
  /-- One past the last position that no run has copied. -/
  back : Nat
  /-- Elements copied at the front and not yet handed out. -/
  frontRun : List α
  /-- Elements copied at the back and not yet handed out. -/
  backRun : List α

/-- The drain of all elements. -/
def drain (seq : Sequence α) : Drain α := ⟨seq, 0, seq.length, [], []⟩

namespace Drain

/-- The number of elements still to come. -/
def remaining (drain : Drain α) : Nat :=
  drain.frontRun.length + (drain.back - drain.front)
    + drain.backRun.length

/-- The first elements that no run has copied: the rest of the stored
run at `front`, as far as `back`. -/
def frontPart? (drain : Drain α) : Option (List α × Nat) := do
  let (values, start) ← drain.source.runAt? drain.front
  let stop := min (start + values.length) drain.back
  return (← Run.window? values start drain.front stop, stop)

/-- The last elements that no run has copied: the stored run before
`back`, from `front` on. -/
def backPart? (drain : Drain α) : Option (List α × Nat) := do
  let (values, start) ← drain.source.runAt? (drain.back - 1)
  let first := max start drain.front
  return (← Run.window? values start first drain.back, first)

/-- Takes the first element still to come. -/
def next (drain : Drain α) : Option α × Drain α :=
  match drain.frontRun with
  | value :: rest => (some value, { drain with frontRun := rest })
  | [] =>
    if drain.back ≤ drain.front then
      match drain.backRun with
      | value :: rest => (some value, { drain with backRun := rest })
      | [] => (none, drain)
    else
      match drain.frontPart? with
      | some (value :: rest, stop) =>
        (some value, { drain with front := stop, frontRun := rest })
      | _ => (none, drain)

/-- Takes the last element still to come. -/
def nextBack (drain : Drain α) : Option α × Drain α :=
  match drain.backRun.getLast? with
  | some value =>
    (some value, { drain with backRun := drain.backRun.dropLast })
  | none =>
    if drain.back ≤ drain.front then
      match drain.frontRun.getLast? with
      | some value =>
        (some value, { drain with frontRun := drain.frontRun.dropLast })
      | none => (none, drain)
    else
      match drain.backPart? with
      | some (run, first) =>
        match run.getLast? with
        | some value =>
          (some value, { drain with
            back := first
            backRun := run.dropLast })
        | none => (none, drain)
      | none => (none, drain)

end Drain

end PersistentCollections.Sequence
