/-
Stepping: what every walk over a collection can do once it has a step.

A step answers the next element, or none, together with the state after
it. The state is a value: a step that is taken leaves the state before
it usable.
-/

namespace PersistentCollections.Steps

variable {σ α : Type}

/-- The step that answers a part of what another one answers. -/
def part {β : Type} (get : α → β) (step : σ → Option α × σ)
    (state : σ) : Option β × σ :=
  ((step state).1.map get, (step state).2)

/-- Drops `count` elements and takes the next one; stops at the first
step that has none. -/
def nth (step : σ → Option α × σ) : Nat → σ → Option α × σ
  | 0, state => step state
  | count + 1, state =>
    match step state with
    | (none, after) => (none, after)
    | (some _, after) => nth step count after

/-- Takes `count` steps and forgets what they answer. -/
def skip (step : σ → Option α × σ) : Nat → σ → σ
  | 0, state => state
  | count + 1, state => skip step count (step state).2

/-- The elements of at most `bound` steps, on top of those `taken`
before, last one first. -/
def takeOnto (step : σ → Option α × σ) :
    Nat → σ → List α → List α
  | 0, _, taken => taken
  | bound + 1, state, taken =>
    match step state with
    | (none, _) => taken
    | (some value, after) => takeOnto step bound after (value :: taken)

/-- The elements of at most `bound` steps in their order. -/
def toList (step : σ → Option α × σ) (bound : Nat) (state : σ) :
    List α :=
  (takeOnto step bound state []).reverse

/-- The step of a list of elements that are at hand. -/
def pop : List α → Option α × List α
  | [] => (none, [])
  | value :: rest => (some value, rest)

/-- The step of a list of elements from its end. -/
def popBack (values : List α) : Option α × List α :=
  (values.getLast?, values.dropLast)

end PersistentCollections.Steps
