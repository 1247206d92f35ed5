/-
Edits that have a result as long as their numbers fit into words.

Trees are shared, so a sequence that is joined with itself a few dozen
times has more elements than words can count, and the edits that would
come to such a number stop instead. `Completes` says of an edit that it
has a result, as said, or has stopped like this, and what is true if it
has. For every edit that is the size of the sequence: below `crowd`
elements none of them stops. So a statement about an edit is never just
one about the case that it has a result.

Edits are made of steps, and a step that completes hands its result on
to the next one (`Completes.bind`); what is known of a stop carries over
to the whole (`Completes.imp`).
`Runs` says the same of a run of calls, of which one may have stopped.
-/
import PersistentCollections.Edit

namespace PersistentCollections

-- ============================================================== words

/-- A number below the words is what it is. -/
theorem inWord_of_lt {number : Nat} (operation : String)
    (h : number < wordSize) : inWord operation number = .ok number :=
  if_pos h

/-- A number past the words is none. -/
theorem inWord_of_le {number : Nat} (operation : String)
    (h : wordSize ≤ number) :
    inWord operation number = .error (.overflow operation) :=
  if_neg (Nat.not_lt_of_le h)

namespace Sequence

/-- The fewest elements of a sequence of which an edit can come to a
number past the words. The tree has two branches of height eleven below
its root, one with all its elements and one with a full leaf, and beside
the tree there is a full focus. -/
def crowd : Nat := (1 <<< 60) + 32 + 32

/-- An answer that is a result, as said, or a stop at a number past the
words, of which something is known. -/
inductive Completes {β : Type} (answer : Except Failure β)
    (crowded : Prop) (P : β → Prop) : Prop where
  | result {found : β} (answer_eq : answer = .ok found) (holds : P found)
  | overflow {operation : String}
      (answer_eq : answer = .error (.overflow operation))
      (crowded : crowded)

/-- A call that has stopped at a number past the words. -/
def Stops {β : Type} (answer : Except Failure β) : Prop :=
  ∃ operation, answer = .error (.overflow operation)

/-- A run of calls that goes as said, or in which a call has stopped, of
which something is known. -/
inductive Runs {β : Type} (answers : List (Except Failure β))
    (crowded : Prop) (P : Prop) : Prop where
  | through (holds : P)
  | stopped (mem : ∃ answer ∈ answers, Stops answer) (crowded : crowded)

/-- Where there is room, a run goes as said. -/
theorem Runs.goes {β : Type} {answers : List (Except Failure β)}
    {crowded P : Prop} (h : Runs answers crowded P) (hroom : ¬crowded) :
    P := by
  cases h with
  | through holds => exact holds
  | stopped mem crowded => exact absurd crowded hroom

/-- Saying less of a run. -/
theorem Runs.imp {β : Type} {answers : List (Except Failure β)}
    {crowded P Q : Prop} (h : Runs answers crowded P) (himp : P → Q) :
    Runs answers crowded Q := by
  cases h with
  | through holds => exact .through (himp holds)
  | stopped mem crowded => exact .stopped mem crowded

namespace Completes

variable {β γ : Type} {answer : Except Failure β}
  {crowded crowded' : Prop} {P Q : β → Prop}

/-- A result that is there is as said. -/
theorem of_ok {found : β} (h : Completes answer crowded P)
    (hanswer : answer = .ok found) : P found := by
  subst hanswer
  cases h with
  | result answer_eq holds =>
      cases answer_eq
      exact holds
  | overflow answer_eq crowded => cases answer_eq

/-- Where there is room, there is a result. -/
theorem goes (h : Completes answer crowded P) (hroom : ¬crowded) :
    ∃ found, answer = .ok found ∧ P found := by
  cases h with
  | result answer_eq holds => exact ⟨_, answer_eq, holds⟩
  | overflow answer_eq crowded => exact absurd crowded hroom

/-- Saying less of a result and of a stop. -/
theorem imp (h : Completes answer crowded P)
    (hcrowded : crowded → crowded') (himp : ∀ found, P found → Q found) :
    Completes answer crowded' Q := by
  cases h with
  | result answer_eq holds => exact .result answer_eq (himp _ holds)
  | overflow answer_eq crowded =>
      exact .overflow answer_eq (hcrowded crowded)

/-- One step after the other. -/
theorem bind {next : β → Except Failure γ} {R : γ → Prop}
    (h : Completes answer crowded P)
    (hnext : ∀ found, P found → Completes (next found) crowded R) :
    Completes (answer >>= next) crowded R := by
  cases h with
  | result answer_eq holds =>
      subst answer_eq
      exact hnext _ holds
  | overflow answer_eq crowded =>
      subst answer_eq
      exact .overflow rfl crowded

/-- A step that only changes the form of a result. -/
theorem map {form : β → γ} {R : γ → Prop}
    (h : Completes answer crowded P)
    (hform : ∀ found, P found → R (form found)) :
    Completes (answer.map form) crowded R := by
  cases h with
  | result answer_eq holds =>
      subst answer_eq
      exact .result rfl (hform _ holds)
  | overflow answer_eq crowded =>
      subst answer_eq
      exact .overflow rfl crowded

/-- A step on a tree that has the shape it relies on. -/
theorem of_some {shape : Option β} {found : β} (h : shape = some found)
    (holds : P found) : Completes (Failure.ofShape shape) crowded P := by
  subst h
  exact .result rfl holds

/-- A step that counts. -/
theorem of_inWord {number : Nat} {operation : String}
    (h : wordSize ≤ number → crowded) :
    Completes (inWord operation number) crowded (· = number) := by
  rcases Nat.lt_or_ge number wordSize with hlt | hge
  · exact .result (inWord_of_lt operation hlt) rfl
  · exact .overflow (inWord_of_le operation hge) (h hge)

end Completes

end Sequence

end PersistentCollections
