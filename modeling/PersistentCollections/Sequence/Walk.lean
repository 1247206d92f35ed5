/-
Walking a sequence from both ends.

A walk holds the positions still ahead of it, `front` up to but without
`back`, and the run of stored elements that each end met last. An end
asks the sequence for another run only when its position has left the
run it holds, so most steps cost no search. What is made of the elements
in order follows: equality, hashing, and how a sequence is written and
listed.
-/
import PersistentCollections.Sequence.Basic
import PersistentCollections.Steps
import PersistentCollections.Text

namespace PersistentCollections.Sequence

variable {α : Type}

/-- The element at `index` with the run it was found in: the run at hand
if it covers the position, and the stored one otherwise. -/
def fetch? (seq : Sequence α) (run : List α × Nat) (index : Nat) :
    Option (α × List α × Nat) := do
  let covers := run.2 ≤ index && index < run.2 + run.1.length
  let (values, start) ← if covers then some run else seq.runAt? index
  return (← values[index - start]?, values, start)

/-- A walk over the elements from both ends. -/
structure Walk (α : Type) where
  /-- The sequence walked over. -/
  source : Sequence α
  /-- The next position of the front end. -/
  front : Nat
  /-- One past the next position of the back end. -/
  back : Nat
  /-- The run the front end met last, and where it starts. -/
  frontRun : List α × Nat
  /-- The run the back end met last, and where it starts. -/
  backRun : List α × Nat

/-- The walk over all elements. -/
def walk (seq : Sequence α) : Walk α :=
  ⟨seq, 0, seq.length, ([], 0), ([], 0)⟩

namespace Walk

/-- The number of elements still to come. -/
def remaining (walk : Walk α) : Nat := walk.back - walk.front

/-- Takes the first element still to come. -/
def next (walk : Walk α) : Option α × Walk α :=
  if walk.back ≤ walk.front then
    (none, walk)
  else
    match walk.source.fetch? walk.frontRun walk.front with
    | none => (none, walk)
    | some (value, run) =>
      (some value, { walk with
        front := walk.front + 1
        frontRun := run })

/-- Takes the last element still to come. -/
def nextBack (walk : Walk α) : Option α × Walk α :=
  if walk.back ≤ walk.front then
    (none, walk)
  else
    match walk.source.fetch? walk.backRun (walk.back - 1) with
    | none => (none, walk)
    | some (value, run) =>
      (some value, { walk with
        back := walk.back - 1
        backRun := run })

end Walk

/-- The elements in order. -/
def toList (seq : Sequence α) : List α :=
  Steps.toList Walk.next seq.length seq.walk

/-- The elements from the last to the first. -/
def toListBack (seq : Sequence α) : List α :=
  Steps.toList Walk.nextBack seq.length seq.walk

-- ============================================== equality and hashing

/-- Sequences are equal when they are equally long and their elements
are equal one by one, whatever their trees look like. -/
instance [BEq α] : BEq (Sequence α) where
  beq left right :=
    left.length == right.length && left.toList == right.toList

/-- Gives a hasher what a sequence is made of: its length, and then its
elements in order. -/
def feed {σ : Type} (count : σ → Nat → σ) (element : σ → α → σ)
    (state : σ) (seq : Sequence α) : σ :=
  seq.toList.foldl element (count state seq.length)

instance [Hashable α] : Hashable (Sequence α) where
  hash := feed (fun state length => mixHash state (hash length))
    (fun state value => mixHash state (hash value)) 7

-- ================================================== text and listings

/-- The elements between square brackets, each by its own rule. -/
def text (element : α → String) (seq : Sequence α) : String :=
  Text.bracketed (seq.toList.map element)

/-- The elements under their number. -/
def listing (seq : Sequence α) : Listing α := ⟨seq.length, seq.toList⟩

/-- The sequence of listed elements. -/
def ofListing (listing : Listing α) :
    Except Failure (Sequence α) :=
  ofList listing.items

/-- The sequence as a JSON array, each element by its own rule. -/
def json (element : α → String) (seq : Sequence α) : String :=
  Json.array (seq.listing.items.map element)

end PersistentCollections.Sequence
