/-
The sequences that edits build.

`Reachable` names every way to come by a sequence: the constructors, the
edits with a result, either half of a cut, and a draft that is opened,
edited and closed. Each way goes through the specification of its edit,
so one induction makes every reachable sequence sound, whatever heights
and fills the edits have left its tree with. An edit that has stopped
has built nothing, and leaves a draft as it was.
-/
import PersistentCollections.Proofs.Lockstep
import PersistentCollections.Proofs.Sequence.Append
import PersistentCollections.Proofs.Sequence.Draft

namespace PersistentCollections

namespace Sequence

variable {α : Type} {seq : Sequence α}

-- =============================================================== drafts

/-- What a caller may ask of a draft that changes it. -/
inductive Draft.Edit (α : Type) where
  /-- Append an element. -/
  | push (value : α)
  /-- Append elements, in order. -/
  | pushAll (values : List α)
  /-- Put an element before a position. -/
  | insert (index : Nat) (value : α)
  /-- Put an element in place of another. -/
  | replace (index : Nat) (value : α)
  /-- End the draft. -/
  | close

/-- The draft after an edit; an edit without a result leaves it as it
was. -/
def Draft.after (draft : Draft α) : Edit α → Draft α
  | .push value => (draft.push value).toOption.getD draft
  | .pushAll values => (draft.pushAll values).toOption.getD draft
  | .insert index value => (draft.insert index value).toOption.getD draft
  | .replace index value =>
      ((draft.replace index value).map Prod.snd).toOption.getD draft
  | .close => (draft.close.map Prod.snd).toOption.getD draft

/-- A draft whose sequence, if it is not closed, is sound. -/
def Draft.Sound (draft : Draft α) : Prop :=
  ∀ seq, draft.content = some seq → Sequence.Sound seq

theorem draft_sound (h : Sound seq) : Draft.Sound seq.draft := by
  intro content hcontent
  cases hcontent
  exact h

namespace Draft

variable {draft : Draft α}

/-- A draft is sound after an edit that completes, be it the new one or,
where the edit has stopped, the old one. -/
theorem kept_sound {answer : Except Failure (Draft α)} {crowded : Prop}
    {items : List α} (h : Draft.Sound draft)
    (hanswer : Draft.Yields answer crowded items) :
    Draft.Sound (answer.toOption.getD draft) := by
  refine Gives.getD (fun after hafter => ?_) h
  obtain ⟨edited, rfl, hsound, -⟩ := hanswer.of_ok hafter
  exact draft_sound hsound

/-- An edit with a result leaves a sound draft, and so does one without
a result. -/
theorem after_sound (h : Draft.Sound draft) (edit : Edit α) :
    Draft.Sound (draft.after edit) := by
  obtain ⟨content⟩ := draft
  cases content with
  | none => cases edit <;> exact h
  | some seq =>
      have hseq : Sequence.Sound seq := h seq rfl
      change Draft.Sound (seq.draft.after edit)
      cases edit with
      | push value => exact kept_sound h (draft_push_spec hseq value)
      | pushAll values => exact kept_sound h (draft_pushAll_spec hseq values)
      | insert index value =>
          by_cases hindex : seq.length < index
          · rw [after, draft_insert_refused value hindex]
            exact h
          · exact kept_sound h
              (draft_insert_spec hseq value (Nat.le_of_not_lt hindex))
      | replace index value =>
          by_cases hindex : seq.length ≤ index
          · rw [after, draft_replace_refused value hindex]
            exact h
          · obtain ⟨old, edited, hedit, -, hsound, -⟩ :=
              draft_replace_spec hseq value (Nat.lt_of_not_le hindex)
            rw [after, hedit]
            exact draft_sound hsound
      | close =>
          intro content hcontent
          cases hcontent

/-- A run of edits leaves a sound draft. -/
theorem run_sound (edits : List (Edit α)) (h : Draft.Sound draft) :
    Draft.Sound (edits.foldl after draft) :=
  List.foldlRecOn edits after h fun _ hkept edit _ => after_sound hkept edit

/-- A draft that closes hands out the sequence that it holds. -/
theorem close_content {ended : Draft α}
    (hclose : draft.close = .ok (seq, ended)) :
    draft.content = some seq := by
  obtain ⟨content⟩ := draft
  cases content with
  | none => cases hclose
  | some content =>
      cases hclose
      rfl

end Draft

-- ============================================================ reachable

/-- The sequences that edits build. -/
inductive Reachable : Sequence α → Prop where
  | empty : Reachable empty
  | singleton (value : α) : Reachable (singleton value)
  | ofList {values : List α} {seq : Sequence α} :
      ofList values = .ok seq → Reachable seq
  | push {seq pushed : Sequence α} {value : α} :
      Reachable seq → seq.push value = .ok pushed → Reachable pushed
  | insert {seq inserted : Sequence α} {index : Nat} {value : α} :
      Reachable seq → seq.insert index value = .ok inserted →
      Reachable inserted
  | set {seq changed : Sequence α} {index : Nat} {value : α} :
      Reachable seq → seq.set index value = .ok changed →
      Reachable changed
  | eraseAt {seq erased : Sequence α} {index : Nat} :
      Reachable seq → seq.eraseAt index = .ok erased → Reachable erased
  | left {seq left right : Sequence α} {index : Nat} :
      Reachable seq → seq.splitAt index = .ok (left, right) →
      Reachable left
  | right {seq left right : Sequence α} {index : Nat} :
      Reachable seq → seq.splitAt index = .ok (left, right) →
      Reachable right
  | append {left right joined : Sequence α} :
      Reachable left → Reachable right →
      left.append right = .ok joined → Reachable joined
  | draft {seq closed : Sequence α} {edits : List (Draft.Edit α)}
      {ended : Draft α} :
      Reachable seq →
      (edits.foldl Draft.after seq.draft).close = .ok (closed, ended) →
      Reachable closed

/-- What edits build is sound. -/
theorem Reachable.sound {seq : Sequence α} (h : Reachable seq) :
    Sound seq := by
  induction h with
  | empty => exact sound_empty
  | singleton value => exact sound_singleton value
  | ofList hbuilt => exact ((ofList_spec _).of_ok hbuilt).1
  | push _ hpush ih => exact ((push_spec ih _).of_ok hpush).1
  | @insert seq _ index value _ hinsert ih =>
      by_cases hindex : seq.length < index
      · rw [insert_refused value hindex] at hinsert
        cases hinsert
      · have hle := Nat.le_of_not_lt hindex
        exact ((insert_spec ih value hle).of_ok hinsert).1
  | @set seq _ index value _ hset ih =>
      by_cases hindex : seq.length ≤ index
      · rw [set_refused value hindex] at hset
        cases hset
      · have hlt := Nat.lt_of_not_le hindex
        exact ((set_spec ih value hlt).of_ok hset).1
  | @eraseAt seq _ index _ herase ih =>
      by_cases hindex : seq.length ≤ index
      · rw [eraseAt_refused hindex] at herase
        cases herase
      · have hlt := Nat.lt_of_not_le hindex
        exact ((eraseAt_spec ih hlt).of_ok herase).1
  | left _ hsplit ih => exact (splitAt_sound ih hsplit).1
  | right _ hsplit ih => exact (splitAt_sound ih hsplit).2
  | append _ _ happend ihleft ihright =>
      exact ((append_spec ihleft ihright).of_ok happend).1
  | draft _ hclose ih =>
      exact Draft.run_sound _ (draft_sound ih) _
        (Draft.close_content hclose)

end Sequence

end PersistentCollections
