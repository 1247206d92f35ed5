/-
What the edits of an open draft make of the list of its sequence.

An edit goes through at a position that the list has, unless there is a
crowd, and leaves a draft of a sound sequence with the edited list; at
any other position it is refused. So what a draft does is said by its
list, and where the focus of the draft lies and when it is put away has
no part in it.
-/
import PersistentCollections.Proofs.Sequence.Content

namespace PersistentCollections

namespace Sequence

variable {α : Type} {seq : Sequence α} {index : Nat} {items : List α}

/-- The edit answers an open draft of a sound sequence of these elements,
or stops at a number past the words. -/
def Draft.Yields (answer : Except Failure (Draft α)) (crowded : Prop)
    (items : List α) : Prop :=
  Completes answer crowded fun draft =>
    ∃ seq : Sequence α, draft = seq.draft ∧ Sound seq ∧ seq.items = items

/-- An edit of the sequence is one of the draft. -/
theorem draft_yields {edit : Except Failure (Sequence α)}
    {crowded : Prop} (h : Yields edit crowded items) :
    Draft.Yields (do return (← edit).draft) crowded items :=
  h.bind fun after hafter => .result rfl ⟨after, rfl, hafter⟩

theorem draft_push_spec (h : Sound seq) (value : α) :
    Draft.Yields (seq.draft.push value) (crowd ≤ seq.length)
      (seq.items ++ [value]) :=
  draft_yields (push_spec h value)

theorem draft_pushAll_spec (h : Sound seq) (values : List α) :
    Draft.Yields (seq.draft.pushAll values)
      (crowd < seq.length + values.length) (seq.items ++ values) :=
  draft_yields (pushAll_spec values h)

theorem draft_insert_spec (h : Sound seq) (value : α)
    (hindex : index ≤ seq.length) :
    Draft.Yields (seq.draft.insert index value) (crowd ≤ seq.length)
      (seq.items.take index ++ value :: seq.items.drop index) :=
  draft_yields (insertNear_spec h value hindex)

theorem draft_insert_refused (value : α) (h : seq.length < index) :
    seq.draft.insert index value
      = .error (.outOfBounds index seq.length) := by
  show (do return (← seq.insertNear index value).draft) = _
  rw [insertNear_refused value h]
  rfl

/-- Replacing an element answers the one that was there. -/
theorem draft_replace_spec (h : Sound seq) (value : α)
    (hindex : index < seq.length) :
    ∃ (old : α) (after : Sequence α),
      seq.draft.replace index value = .ok (old, after.draft)
        ∧ seq.items[index]? = some old
        ∧ Sound after ∧ after.items = seq.items.set index value := by
  have hinside : index < seq.items.length := by
    rw [h.length_items]
    exact hindex
  have hold := List.getElem?_eq_getElem hinside
  obtain ⟨after, hset, hsound, hitems⟩ := (set_spec h value hindex).goes id
  refine ⟨_, after, ?_, hold, hsound, hitems⟩
  show (if seq.length ≤ index then _ else _) = _
  rw [if_neg (Nat.not_le_of_lt hindex), h.get?_eq, hold, hset]
  rfl

theorem draft_replace_refused (value : α) (h : seq.length ≤ index) :
    seq.draft.replace index value
      = .error (.outOfBounds index seq.length) := by
  show (if seq.length ≤ index then _ else _) = _
  rw [if_pos h]
  rfl

end Sequence

end PersistentCollections
