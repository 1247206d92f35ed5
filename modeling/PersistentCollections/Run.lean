/-
Runs: the short lists that the nodes of a tree hold, edited by
position. Each edit names the positions it needs and answers `none`
when the run does not have them; nothing is cut off in silence.
-/

namespace PersistentCollections.Run

variable {α : Type}

/-- Replaces `count` elements from `start` on by `items`. -/
def splice? (run : List α) (start count : Nat) (items : List α) :
    Option (List α) :=
  if start + count ≤ run.length then
    some (run.take start ++ items ++ run.drop (start + count))
  else
    none

/-- Puts `items` before position `index`. -/
def insert? (run : List α) (index : Nat) (items : List α) :
    Option (List α) :=
  splice? run index 0 items

/-- Puts `item` in place of the element at `index`. -/
def set? (run : List α) (index : Nat) (item : α) : Option (List α) :=
  if index < run.length then some (run.set index item) else none

/-- The elements before `index`, and the rest. -/
def cut? (run : List α) (index : Nat) : Option (List α × List α) :=
  if index ≤ run.length then
    some (run.take index, run.drop index)
  else
    none

/-- The elements from `start` up to but without `stop`. -/
def slice? (run : List α) (start stop : Nat) : Option (List α) :=
  if start ≤ stop ∧ stop ≤ run.length then
    some ((run.drop start).take (stop - start))
  else
    none

/-- The elements at positions `first` up to but without `stop`, of a
run whose own first element has position `start`. -/
def window? (run : List α) (start first stop : Nat) : Option (List α) :=
  if start ≤ first then
    slice? run (first - start) (stop - start)
  else
    none

/-- Two halves, the second one longer by one if the length is odd. -/
def halves (run : List α) : List α × List α :=
  (run.take (run.length / 2), run.drop (run.length / 2))

end PersistentCollections.Run
