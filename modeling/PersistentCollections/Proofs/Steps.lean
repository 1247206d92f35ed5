/-
A step that hands out a list, element by element, is collected into that
list.

`Follows step Holds` says what it is for a step to follow a list: in a
state that holds the list, it answers the first element and goes on to a
state that holds the rest, and it answers none where the list is empty.
-/
import PersistentCollections.Steps

namespace PersistentCollections.Steps

variable {σ α : Type}

/-- The step takes the elements of the list that a state holds, in
order. -/
structure Follows (step : σ → Option α × σ) (Holds : σ → List α → Prop) :
    Prop where
  done : ∀ {state : σ}, Holds state [] → (step state).1 = none
  next : ∀ {state : σ} {value : α} {rest : List α},
    Holds state (value :: rest) →
    (step state).1 = some value ∧ Holds (step state).2 rest

variable {step : σ → Option α × σ} {Holds : σ → List α → Prop}

/-- Taking steps collects the list on top of what was taken before. -/
theorem takeOnto_eq (h : Follows step Holds) :
    ∀ {values : List α} {state : σ} {bound : Nat} {taken : List α},
      Holds state values → values.length ≤ bound →
      takeOnto step bound state taken = values.reverse ++ taken := by
  intro values
  induction values with
  | nil =>
      intro state bound taken hholds _
      cases bound with
      | zero => rfl
      | succ bound =>
          have hnone := h.done hholds
          unfold takeOnto
          cases hstep : step state with
          | mk answer after =>
              rw [hstep] at hnone
              cases hnone
              rfl
  | cons value rest ih =>
      intro state bound taken hholds hbound
      cases bound with
      | zero => simp at hbound
      | succ bound =>
          obtain ⟨hsome, hrest⟩ := h.next hholds
          rw [List.length_cons] at hbound
          unfold takeOnto
          cases hstep : step state with
          | mk answer after =>
              rw [hstep] at hsome hrest
              cases hsome
              rw [List.reverse_cons, List.append_assoc]
              exact ih hrest (by omega)

/-- Enough steps collect the whole list. -/
theorem toList_eq (h : Follows step Holds) {values : List α} {state : σ}
    {bound : Nat} (hholds : Holds state values)
    (hbound : values.length ≤ bound) :
    toList step bound state = values := by
  unfold toList
  rw [takeOnto_eq h hholds hbound, List.append_nil, List.reverse_reverse]

/-- A step that answers parts collects the parts of what is collected
otherwise. -/
theorem toList_part {β : Type} (get : α → β) (bound : Nat) (state : σ) :
    toList (part get step) bound state
      = (toList step bound state).map get := by
  have honto : ∀ (bound : Nat) (state : σ) (taken : List α),
      takeOnto (part get step) bound state (taken.map get)
        = (takeOnto step bound state taken).map get := by
    intro bound
    induction bound with
    | zero => exact fun _ _ => rfl
    | succ bound ih =>
        intro state taken
        unfold takeOnto part
        rcases step state with ⟨_ | value, after⟩
        · rfl
        · exact ih after (value :: taken)
  unfold toList
  rw [List.map_reverse, ← honto bound state []]
  rfl

/-- A step answers the first element that its state holds, if any. -/
theorem answer_eq (h : Follows step Holds) {values : List α} {state : σ}
    (hholds : Holds state values) : (step state).1 = values.head? := by
  cases values with
  | nil => exact h.done hholds
  | cons value rest => exact (h.next hholds).1

/-- A state that is skipped ahead holds the rest of the list. -/
theorem skip_holds (h : Follows step Holds)
    (hend : ∀ {state : σ}, Holds state [] → Holds (step state).2 []) :
    ∀ (count : Nat) {values : List α} {state : σ}, Holds state values →
      Holds (skip step count state) (values.drop count) := by
  intro count
  induction count with
  | zero => exact fun hholds => hholds
  | succ count ih =>
      intro values state hholds
      cases values with
      | nil =>
          have hrest := ih (hend hholds)
          rwa [List.drop_nil] at hrest
      | cons value rest => exact ih (h.next hholds).2

end PersistentCollections.Steps
