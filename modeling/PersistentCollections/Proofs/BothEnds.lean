/-
A walk with two ends is a queue.

A caller moves at either end of a walk: takes the first element or the
last one, or drops some before taking one. A list makes the same moves at
its own two ends. Where each end of a walk takes what its state still
holds (`BothEnds`), a move leaves a state that holds what the list keeps
(`BothEnds.move`), and so any run of moves is answered as by the list
(`BothEnds.run`). A list parts with an element when it hands it out, and
one that is used up stays so; so no element is handed out at both ends,
and behind the last one there is none for ever (`BothEnds.queue`). A
walk that counts what it has left tells its callers when that is
(`Queues`), and where no move drops anything, what is handed out and
what is left are all the elements (`PassesNone`).
-/
import Mathlib.Data.List.Perm.Subperm
import PersistentCollections.Proofs.Lockstep
import PersistentCollections.Proofs.Steps

namespace PersistentCollections.Steps

variable {σ α : Type}

/-- What a caller may ask of a walk with two ends. -/
inductive Move where
  /-- Take the first element. -/
  | next
  /-- Take the last element. -/
  | nextBack
  /-- Drop elements at the front, and take the one behind them. -/
  | nth (count : Nat)

/-- What a walk answers to a move, and the walk after it. -/
def move (next nextBack : σ → Option α × σ) (state : σ) :
    Move → Option α × σ
  | .next => next state
  | .nextBack => nextBack state
  | .nth count => nth next count state

/-- How many elements a move drops before it takes one. -/
def Move.dropped : Move → Nat
  | .nth count => count
  | _ => 0

/-- The move of a list of elements that are at hand. -/
def moveList : List α → Move → Option α × List α := move pop popBack

-- =============================================================== queues

theorem popBack_concat (rest : List α) (value : α) :
    popBack (rest ++ [value]) = (some value, rest) := by
  rw [popBack, List.getLast?_concat, List.dropLast_concat]

/-- A list without elements answers none, and stays as it is. -/
theorem moveList_nil (asked : Move) :
    moveList ([] : List α) asked = (none, []) := by
  cases asked with
  | nth count => cases count <;> rfl
  | _ => rfl

/-- Dropping elements and taking one keeps the order of what is left. -/
theorem nth_pop_sublist (count : Nat) (values : List α) :
    ((nth pop count values).1.toList ++ (nth pop count values).2).Sublist
      values := by
  induction count generalizing values with
  | zero => cases values <;> exact .refl _
  | succ count ih =>
      cases values with
      | nil => exact .refl _
      | cons value rest => exact (ih rest).cons value

/-- A list keeps no copy of what it hands out. -/
theorem moveList_subperm (values : List α) (asked : Move) :
    ((moveList values asked).1.toList ++ (moveList values asked).2).Subperm
      values := by
  cases asked with
  | next => exact (nth_pop_sublist 0 values).subperm
  | nth count => exact (nth_pop_sublist count values).subperm
  | nextBack =>
      show ((popBack values).1.toList ++ (popBack values).2).Subperm values
      rcases List.eq_nil_or_concat values with rfl | ⟨rest, value, rfl⟩
      · exact .refl _
      · rw [List.concat_eq_append, popBack_concat]
        exact List.perm_append_comm.subperm

/-- A list keeps what it neither hands out nor drops. -/
theorem moveList_perm (values : List α) {asked : Move}
    (h : asked.dropped = 0) :
    ((moveList values asked).1.toList ++ (moveList values asked).2).Perm
      values := by
  cases asked with
  | next => cases values <;> exact .refl _
  | nth count =>
      cases h
      cases values <;> exact .refl _
  | nextBack =>
      show ((popBack values).1.toList ++ (popBack values).2).Perm values
      rcases List.eq_nil_or_concat values with rfl | ⟨rest, value, rfl⟩
      · exact .refl _
      · rw [List.concat_eq_append, popBack_concat]
        exact List.perm_append_comm

/-- What every move of some keeps of the elements, in its answer and
behind it, a run of these moves keeps. -/
theorem transcript_keeps {Keeps : List α → List α → Prop}
    (hrefl : ∀ values, Keeps values values)
    (htrans : ∀ {before between after}, Keeps after between →
      Keeps between before → Keeps after before)
    (hbehind : ∀ {before after : List α} (answered : List α),
      Keeps after before → Keeps (answered ++ after) (answered ++ before)) :
    ∀ {moves : List Move},
      (∀ asked ∈ moves, ∀ values,
        Keeps ((moveList values asked).1.toList ++ (moveList values asked).2)
          values) →
      ∀ values : List α,
        Keeps ((transcript moveList values moves).1.filterMap id
          ++ (transcript moveList values moves).2) values := by
  intro moves
  induction moves with
  | nil => exact fun _ values => hrefl values
  | cons asked moves ih =>
      intro hmoves values
      have hstep := hmoves asked List.mem_cons_self values
      have hlater := ih fun later hlater =>
        hmoves later (List.mem_cons_of_mem _ hlater)
      unfold transcript
      revert hstep
      rcases moveList values asked with ⟨answer, after⟩
      intro hstep
      have hjoin :
          (answer :: (transcript moveList after moves).1).filterMap id
            = answer.toList
              ++ (transcript moveList after moves).1.filterMap id := by
        cases answer <;> rfl
      rw [hjoin, List.append_assoc]
      exact htrans (hbehind answer.toList (hlater after)) hstep

/-- Any moves hand out elements of the list, each of them once. -/
theorem transcript_subperm (moves : List Move) (values : List α) :
    ((transcript moveList values moves).1.filterMap id
        ++ (transcript moveList values moves).2).Subperm values :=
  transcript_keeps List.Subperm.refl List.Subperm.trans
    (fun answered h => (List.subperm_append_left answered).mpr h)
    (fun asked _ values => moveList_subperm values asked) values

/-- Moves that drop nothing pass over no element. -/
theorem transcript_perm {moves : List Move}
    (h : ∀ asked ∈ moves, asked.dropped = 0) (values : List α) :
    ((transcript moveList values moves).1.filterMap id
        ++ (transcript moveList values moves).2).Perm values :=
  transcript_keeps List.Perm.refl List.Perm.trans
    (fun answered h => h.append_left answered)
    (fun asked hasked values => moveList_perm values (h asked hasked)) values

-- ============================================================ both ends

/-- Both ends take the elements of the list that a state holds. -/
structure BothEnds (next nextBack : σ → Option α × σ)
    (Holds : σ → List α → Prop) : Prop where
  next : ∀ {state : σ} {values : List α}, Holds state values →
    (next state).1 = (pop values).1 ∧ Holds (next state).2 (pop values).2
  nextBack : ∀ {state : σ} {values : List α}, Holds state values →
    (nextBack state).1 = (popBack values).1
      ∧ Holds (nextBack state).2 (popBack values).2

namespace BothEnds

variable {next nextBack : σ → Option α × σ} {Holds : σ → List α → Prop}
  {state : σ} {values : List α}

-- ============================================================== one end

/-- The front end takes the elements in order. -/
theorem follows (h : BothEnds next nextBack Holds) :
    Follows next Holds where
  done := fun hholds => (h.next hholds).1
  next := fun hholds => h.next hholds

/-- The back end takes them in reverse. -/
theorem follows_back (h : BothEnds next nextBack Holds) :
    Follows nextBack fun state values => Holds state values.reverse where
  done := fun hholds => (h.nextBack hholds).1
  next := by
    intro state value rest hholds
    obtain ⟨hanswer, hrest⟩ := h.nextBack hholds
    rw [List.reverse_cons, popBack_concat] at hanswer hrest
    exact ⟨hanswer, hrest⟩

/-- Dropping elements and taking the next one. -/
theorem nth (h : BothEnds next nextBack Holds) (count : Nat) :
    ∀ {state : σ} {values : List α}, Holds state values →
      (Steps.nth next count state).1 = (Steps.nth pop count values).1
        ∧ Holds (Steps.nth next count state).2
            (Steps.nth pop count values).2 := by
  induction count with
  | zero => exact fun hholds => h.next hholds
  | succ count ih =>
      intro state values hholds
      obtain ⟨hanswer, hrest⟩ := h.next hholds
      rw [Steps.nth, Steps.nth]
      cases hstep : next state with
      | mk answer after =>
          rw [hstep] at hanswer hrest
          cases values with
          | nil =>
              cases hanswer
              exact ⟨rfl, hrest⟩
          | cons value rest =>
              cases hanswer
              exact ih hrest

/-- Ends that take elements take the parts of them, too. -/
theorem part {β : Type} (h : BothEnds next nextBack Holds) (get : α → β) :
    BothEnds (Steps.part get next) (Steps.part get nextBack)
      fun state parts => ∃ values, Holds state values
        ∧ parts = values.map get where
  next := by
    rintro state _ ⟨values, hholds, rfl⟩
    obtain ⟨hanswer, hrest⟩ := h.next hholds
    unfold Steps.part
    rw [hanswer]
    cases values with
    | nil => exact ⟨rfl, _, hrest, rfl⟩
    | cons value rest => exact ⟨rfl, _, hrest, rfl⟩
  nextBack := by
    rintro state _ ⟨values, hholds, rfl⟩
    obtain ⟨hanswer, hrest⟩ := h.nextBack hholds
    unfold Steps.part popBack
    rw [hanswer, List.getLast?_map]
    exact ⟨rfl, _, hrest, List.map_dropLast.symm⟩

-- ================================================================= moves

/-- A move is answered as by the list. -/
theorem move (h : BothEnds next nextBack Holds)
    (hholds : Holds state values) (asked : Move) :
    (Steps.move next nextBack state asked).1 = (moveList values asked).1
      ∧ Holds (Steps.move next nextBack state asked).2
          (moveList values asked).2 := by
  cases asked with
  | next => exact h.next hholds
  | nextBack => exact h.nextBack hholds
  | nth count => exact h.nth count hholds

/-- Any moves, one after the other, are answered as by the list. -/
theorem run (h : BothEnds next nextBack Holds)
    (hholds : Holds state values) (moves : List Move) :
    (transcript (Steps.move next nextBack) state moves).1
        = (transcript moveList values moves).1
      ∧ Holds (transcript (Steps.move next nextBack) state moves).2
          (transcript moveList values moves).2 := by
  have hrun : _ = (transcript moveList values (moves.map id)).1.map id
      ∧ Holds _ (transcript moveList values (moves.map id)).2 :=
    transcript_lockstep (R := Holds) h.move moves hholds
  rwa [List.map_id, List.map_id] at hrun

/-- A walk with two ends is a queue: moves are answered as by the list,
each element is handed out at most once, and when no element is left
there is none at either end from then on. -/
theorem queue (h : BothEnds next nextBack Holds)
    (hholds : Holds state values) (moves : List Move) :
    let walked := transcript (Steps.move next nextBack) state moves
    let queued := transcript moveList values moves
    walked.1 = queued.1 ∧ (walked.1.filterMap id).Subperm values
      ∧ (queued.2 = [] → ∀ later : List Move,
          (transcript (Steps.move next nextBack) walked.2 later).1
            = later.map fun _ => none) := by
  intro walked queued
  obtain ⟨hanswers, hleft⟩ := h.run hholds moves
  refine ⟨hanswers, ?_, ?_⟩
  · rw [show walked.1 = queued.1 from hanswers]
    exact (List.sublist_append_left _ _).subperm.trans
      (transcript_subperm moves values)
  · intro hnone later
    rw [show (transcript moveList values moves).2 = [] from hnone] at hleft
    rw [(h.run hleft later).1, transcript_still moveList_nil]

end BothEnds

-- ===================================================== counted queues

/-- A walk with two ends that hands out a list as a queue does, and
tells how much of it is left. -/
structure Queues (next nextBack : σ → Option α × σ) (remaining : σ → Nat)
    (state : σ) (values : List α) : Prop where
  /-- Moves are answered as by the list. -/
  answers : ∀ moves : List Move,
    (transcript (Steps.move next nextBack) state moves).1
      = (transcript moveList values moves).1
  /-- After any moves, what the list has left is counted. -/
  counts : ∀ moves : List Move,
    remaining (transcript (Steps.move next nextBack) state moves).2
      = (transcript moveList values moves).2.length
  /-- No element is handed out twice. -/
  once : ∀ moves : List Move,
    ((transcript (Steps.move next nextBack) state moves).1.filterMap
      id).Subperm values
  /-- When nothing is left there is none at either end from then on. -/
  ends : ∀ moves : List Move,
    remaining (transcript (Steps.move next nextBack) state moves).2 = 0 →
    ∀ later : List Move,
      (transcript (Steps.move next nextBack)
        (transcript (Steps.move next nextBack) state moves).2 later).1
        = later.map fun _ => none

/-- A walk with two ends that hands out a list and passes over none of
its elements, unless it is asked to drop them. -/
def PassesNone (next nextBack : σ → Option α × σ) (state : σ)
    (values : List α) : Prop :=
  ∀ moves : List Move, (∀ asked ∈ moves, asked.dropped = 0) →
    ((transcript (Steps.move next nextBack) state moves).1.filterMap id
      ++ (transcript moveList values moves).2).Perm values

theorem BothEnds.passesNone {next nextBack : σ → Option α × σ}
    {Holds : σ → List α → Prop} (h : BothEnds next nextBack Holds)
    {state : σ} {values : List α} (hholds : Holds state values) :
    PassesNone next nextBack state values := by
  intro moves hmoves
  rw [(h.run hholds moves).1]
  exact transcript_perm hmoves values

/-- A walk whose states count the list that they hold is a counted
queue. -/
theorem BothEnds.queues {next nextBack : σ → Option α × σ}
    {Holds : σ → List α → Prop} {remaining : σ → Nat}
    (h : BothEnds next nextBack Holds)
    (hcount : ∀ {state : σ} {values : List α}, Holds state values →
      remaining state = values.length)
    {state : σ} {values : List α} (hholds : Holds state values) :
    Queues next nextBack remaining state values where
  answers := fun moves => (h.run hholds moves).1
  counts := fun moves => hcount (h.run hholds moves).2
  once := fun moves => (h.queue hholds moves).2.1
  ends := by
    intro moves hnone
    rw [hcount (h.run hholds moves).2] at hnone
    exact (h.queue hholds moves).2.2 (List.length_eq_zero_iff.mp hnone)

end PersistentCollections.Steps
