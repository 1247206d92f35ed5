/-
Conversations with a draft of a sequence, and the list they are about.

A caller appends, inserts, replaces and reads, one call after the other.
A draft answers each call as a plain list would that the calls before it
have edited, refusals included, and what it hands out when it is closed
is that list (`conversation_spec`). The edits of a sequence itself go by
another rule of where the focus may grow, and lead to the same list
(`retrace_spec`), so neither rule shows. Once a draft is closed, every call
on it is refused before any position is looked at.

All of that is so unless a call stops at a number past the words. The
list that such a call would lead to is a crowd, and since no call makes a
list shorter (`length_le_reply`), so is the list in the end.
-/
import PersistentCollections.Proofs.Lockstep
import PersistentCollections.Proofs.Sequence.Doubling
import PersistentCollections.Proofs.Sequence.Walk

namespace PersistentCollections

namespace Sequence

variable {α : Type}

/-- What a caller may ask of a draft, but for closing it. -/
inductive Draft.Call (α : Type) where
  /-- Append an element. -/
  | push (value : α)
  /-- Append elements, in order. -/
  | pushAll (values : List α)
  /-- Put an element before a position. -/
  | insert (index : Nat) (value : α)
  /-- Put an element in place of another. -/
  | replace (index : Nat) (value : α)
  /-- Read the element at a position. -/
  | get? (index : Nat)
  /-- Count the elements. -/
  | size
  /-- Ask for any element. -/
  | isEmpty

/-- What a draft answers to a call. -/
inductive Draft.Answer (α : Type) where
  /-- The edit was made. -/
  | done
  /-- The element that was replaced. -/
  | displaced (old : α)
  /-- The element at a position, if there is one. -/
  | element (found : Option α)
  /-- How many elements there are. -/
  | count (number : Nat)
  /-- Whether it is as asked. -/
  | flag (holds : Bool)

-- ============================================================ the parties

/-- What a list answers to a call, and the list after it. -/
def reply (items : List α) :
    Draft.Call α → Except Failure (Draft.Answer α) × List α
  | .push value => (.ok .done, items ++ [value])
  | .pushAll values => (.ok .done, items ++ values)
  | .insert index value =>
    if index ≤ items.length then
      (.ok .done, items.take index ++ value :: items.drop index)
    else
      (.error (.outOfBounds index items.length), items)
  | .replace index value =>
    match items[index]? with
    | some old => (.ok (.displaced old), items.set index value)
    | none => (.error (.outOfBounds index items.length), items)
  | .get? index => (.ok (.element items[index]?), items)
  | .size => (.ok (.count items.length), items)
  | .isEmpty => (.ok (.flag (items.length == 0)), items)

/-- What a draft answers to a call, and the draft after it. -/
def Draft.ask (draft : Draft α) :
    Call α → Except Failure (Answer α × Draft α)
  | .push value => do return (.done, ← draft.push value)
  | .pushAll values => do return (.done, ← draft.pushAll values)
  | .insert index value => do return (.done, ← draft.insert index value)
  | .replace index value => do
    let (old, after) ← draft.replace index value
    return (.displaced old, after)
  | .get? index => do return (.element (← draft.get? index), draft)
  | .size => do return (.count (← draft.size), draft)
  | .isEmpty => do return (.flag (← draft.isEmpty), draft)

/-- What a caller hears of a call, and the draft that is left. -/
def Draft.respond (draft : Draft α) (call : Call α) :
    Except Failure (Answer α) × Draft α :=
  settle draft (draft.ask call)

/-- The edit of a call made on a sequence instead of on a draft. -/
def redo (seq : Sequence α) : Draft.Call α → Except Failure (Sequence α)
  | .push value => seq.push value
  | .pushAll values => values.foldlM push seq
  | .insert index value => seq.insert index value
  | .replace index value => seq.set index value
  | .get? _ | .size | .isEmpty => .ok seq

/-- Whether the edit goes through, and the sequence that is left. -/
def retrace (seq : Sequence α) (call : Draft.Call α) :
    Except Failure Unit × Sequence α :=
  settle seq ((seq.redo call).map fun after => ((), after))

/-- A sound sequence of these elements. -/
def Holds (seq : Sequence α) (items : List α) : Prop :=
  Sound seq ∧ seq.items = items

/-- An open draft of a sound sequence of these elements. -/
def Draft.Holds (draft : Draft α) (items : List α) : Prop :=
  ∃ seq : Sequence α, draft = seq.draft ∧ Sequence.Holds seq items

-- ================================================================ steps

variable {seq : Sequence α} {items : List α} {draft : Draft α}

/-- A list refuses nothing but positions. -/
theorem reply_refuses {call : Draft.Call α} {cause : Failure}
    (h : (reply items call).1 = .error cause) :
    ∃ index length, cause = .outOfBounds index length := by
  cases call with
  | insert index value =>
      rw [reply] at h
      split at h
      · cases h
      · cases h
        exact ⟨_, _, rfl⟩
  | replace index value =>
      rw [reply] at h
      split at h
      · cases h
      · cases h
        exact ⟨_, _, rfl⟩
  | _ => cases h

/-- Putting an element into a list makes it longer by one. -/
theorem length_insert {index : Nat} (value : α)
    (hindex : index ≤ items.length) :
    (items.take index ++ value :: items.drop index).length
      = items.length + 1 := by
  rw [List.length_append, List.length_cons, List.length_take,
    List.length_drop]
  omega

/-- No call makes a list shorter. -/
theorem length_le_reply (items : List α) (call : Draft.Call α) :
    items.length ≤ (reply items call).2.length := by
  cases call with
  | push value =>
      rw [reply, List.length_append]
      exact Nat.le_add_right _ _
  | pushAll values =>
      rw [reply, List.length_append]
      exact Nat.le_add_right _ _
  | insert index value =>
      rw [reply]
      split
      case isTrue hindex =>
        rw [length_insert value hindex]
        exact Nat.le_succ _
      case isFalse => exact Nat.le_refl _
  | replace index value =>
      rw [reply]
      split
      · exact Nat.le_of_eq (List.length_set ..).symm
      · exact Nat.le_refl _
  | _ => exact Nat.le_refl _

/-- A call that a draft answers as the list does, and that leads both to
the same list, or that has stopped before the list is a crowd. -/
def Draft.Follows (responded : Except Failure (Answer α) × Draft α)
    (replied : Except Failure (Answer α) × List α) : Prop :=
  (responded.1 = replied.1 ∧ responded.2.Holds replied.2)
    ∨ (Stops responded.1 ∧ crowd < replied.2.length)

/-- An edit with nothing to answer. -/
theorem Draft.Yields.follows {edit : Except Failure (Draft α)}
    {crowded : Prop} (h : Draft.Yields edit crowded items)
    (hcrowd : crowded → crowd < items.length) (draft : Draft α) :
    Draft.Follows (settle draft do return (.done, ← edit))
      (.ok .done, items) := by
  cases h with
  | result answer_eq holds =>
      obtain ⟨after, rfl, hafter⟩ := holds
      rw [answer_eq]
      exact .inl ⟨rfl, after, rfl, hafter⟩
  | overflow answer_eq crowded =>
      rw [answer_eq]
      exact .inr ⟨⟨_, rfl⟩, hcrowd crowded⟩

/-- A draft answers a call as the list does. -/
theorem respond_spec (h : draft.Holds items) (call : Draft.Call α) :
    Draft.Follows (draft.respond call) (reply items call) := by
  obtain ⟨seq, rfl, hsound, rfl⟩ := h
  have hlen := hsound.length_items
  have hself : Draft.Holds seq.draft seq.items := ⟨seq, rfl, hsound, rfl⟩
  cases call with
  | push value =>
      refine (draft_push_spec hsound value).follows (fun hcrowd => ?_) _
      rw [List.length_append, hlen]
      exact Nat.lt_succ_of_le hcrowd
  | pushAll values =>
      refine (draft_pushAll_spec hsound values).follows (fun hcrowd => ?_) _
      rwa [List.length_append, hlen]
  | insert index value =>
      by_cases hindex : index ≤ seq.length
      · have hinsert := (draft_insert_spec hsound value hindex).follows
          (fun hcrowd => by
            rw [length_insert value (hlen ▸ hindex), hlen]
            exact Nat.lt_succ_of_le hcrowd) seq.draft
        rwa [reply, hlen, if_pos hindex]
      · rw [Draft.respond, Draft.ask, reply, hlen,
          draft_insert_refused value (Nat.lt_of_not_le hindex),
          if_neg hindex]
        exact .inl ⟨rfl, hself⟩
  | replace index value =>
      rw [Draft.respond, Draft.ask, reply, hlen]
      by_cases hindex : index < seq.length
      · obtain ⟨old, after, hedit, hold, hafter⟩ :=
          draft_replace_spec hsound value hindex
        rw [hedit, hold]
        exact .inl ⟨rfl, after, rfl, hafter⟩
      · have hnone := List.getElem?_eq_none
          (hlen ▸ Nat.le_of_not_lt hindex : seq.items.length ≤ index)
        rw [draft_replace_refused value (Nat.le_of_not_lt hindex), hnone]
        exact .inl ⟨rfl, hself⟩
  | get? index =>
      refine .inl ⟨?_, hself⟩
      rw [reply, ← hsound.get?_eq]
      rfl
  | size =>
      refine .inl ⟨?_, hself⟩
      rw [reply, hlen]
      rfl
  | isEmpty =>
      refine .inl ⟨?_, hself⟩
      rw [reply, hlen]
      rfl

/-- An edit that is refused where the list refuses it and leads to the
same list otherwise, or that has stopped before the list is a crowd. -/
def Follows (retraced : Except Failure Unit × Sequence α)
    (replied : Except Failure (Draft.Answer α) × List α) : Prop :=
  (retraced.1 = replied.1.map (fun _ => ()) ∧ retraced.2.Holds replied.2)
    ∨ (Stops retraced.1 ∧ crowd < replied.2.length)

/-- An edit with nothing to answer. -/
theorem Yields.follows {edit : Except Failure (Sequence α)}
    {crowded : Prop} (h : Yields edit crowded items)
    (hcrowd : crowded → crowd < items.length) (seq : Sequence α) :
    Follows (settle seq (edit.map fun after => ((), after)))
      (.ok .done, items) := by
  cases h with
  | result answer_eq holds =>
      rw [answer_eq]
      exact .inl ⟨rfl, holds⟩
  | overflow answer_eq crowded =>
      rw [answer_eq]
      exact .inr ⟨⟨_, rfl⟩, hcrowd crowded⟩

/-- The same edit of the sequence is refused where the list refuses it,
and otherwise leads to the edited list too. -/
theorem retrace_spec (h : seq.Holds items) (call : Draft.Call α) :
    Follows (seq.retrace call) (reply items call) := by
  obtain ⟨hsound, rfl⟩ := h
  have hlen := hsound.length_items
  have hself : Holds seq seq.items := ⟨hsound, rfl⟩
  cases call with
  | push value =>
      refine (push_spec hsound value).follows (fun hcrowd => ?_) _
      rw [List.length_append, hlen]
      exact Nat.lt_succ_of_le hcrowd
  | pushAll values =>
      refine (pushAll_spec values hsound).follows (fun hcrowd => ?_) _
      rwa [List.length_append, hlen]
  | insert index value =>
      by_cases hindex : index ≤ seq.length
      · have hinsert := (insert_spec hsound value hindex).follows
          (fun hcrowd => by
            rw [length_insert value (hlen ▸ hindex), hlen]
            exact Nat.lt_succ_of_le hcrowd) seq
        rwa [reply, hlen, if_pos hindex]
      · rw [retrace, redo, reply, hlen,
          insert_refused value (Nat.lt_of_not_le hindex), if_neg hindex]
        exact .inl ⟨rfl, hself⟩
  | replace index value =>
      rw [retrace, redo, reply, hlen]
      by_cases hindex : index < seq.length
      · obtain ⟨after, hedit, hafter⟩ := (set_spec hsound value hindex).goes id
        have hinside : index < seq.items.length := hlen ▸ hindex
        rw [hedit, List.getElem?_eq_getElem hinside]
        exact .inl ⟨rfl, hafter⟩
      · have hnone := List.getElem?_eq_none
          (hlen ▸ Nat.le_of_not_lt hindex : seq.items.length ≤ index)
        rw [set_refused value (Nat.le_of_not_lt hindex), hnone]
        exact .inl ⟨rfl, hself⟩
  | _ => exact .inl ⟨rfl, hself⟩

-- ================================================================= runs

/-- A crowd stays one. -/
theorem crowd_reply {items : List α} (call : Draft.Call α)
    (h : crowd < items.length) : crowd < (reply items call).2.length :=
  Nat.lt_of_lt_of_le h (length_le_reply items call)

/-- A conversation with an open draft is one with its list. -/
theorem conversation_spec (h : draft.Holds items)
    (calls : List (Draft.Call α)) :
    Runs (transcript Draft.respond draft calls).1
      (crowd < (transcript reply items calls).2.length)
      ((transcript Draft.respond draft calls).1
          = (transcript reply items calls).1
        ∧ (transcript Draft.respond draft calls).2.Holds
            (transcript reply items calls).2) := by
  -- the list is told the calls as they are, and answers in their words
  have hrun : (_ = (transcript reply items (calls.map id)).1.map id
        ∧ Draft.Holds _ (transcript reply items (calls.map id)).2)
      ∨ ((∃ said ∈ _, Stops said)
        ∧ crowd < (transcript reply items (calls.map id)).2.length) :=
    transcript_lockstep_unless (Q := fun items => crowd < items.length)
      respond_spec crowd_reply calls h
  rw [List.map_id, List.map_id] at hrun
  rcases hrun with hthrough | ⟨hstopped, hcrowd⟩
  · exact .through hthrough
  · exact .stopped hstopped hcrowd

/-- The edits of a conversation made on the sequence itself. -/
theorem retraced_spec (h : seq.Holds items) (calls : List (Draft.Call α)) :
    Runs (transcript retrace seq calls).1
      (crowd < (transcript reply items calls).2.length)
      ((transcript retrace seq calls).1
          = (transcript reply items calls).1.map (·.map fun _ => ())
        ∧ (transcript retrace seq calls).2.Holds
            (transcript reply items calls).2) := by
  have hrun : (_ = (transcript reply items (calls.map id)).1.map _
        ∧ Holds _ (transcript reply items (calls.map id)).2)
      ∨ ((∃ said ∈ _, Stops said)
        ∧ crowd < (transcript reply items (calls.map id)).2.length) :=
    transcript_lockstep_unless (Q := fun items => crowd < items.length)
      retrace_spec crowd_reply calls h
  rw [List.map_id] at hrun
  rcases hrun with hthrough | ⟨hstopped, hcrowd⟩
  · exact .through hthrough
  · exact .stopped hstopped hcrowd

/-- Every call on a closed draft is refused. -/
theorem respond_closed (call : Draft.Call α) :
    Draft.respond ⟨none⟩ call
      = (.error (.draftClosed "TransientRrbVector"), ⟨none⟩) := by
  cases call <;> rfl

namespace Holds

variable {other : Sequence α}

theorem contents_eq (h : seq.Holds items) : seq.contents = items := by
  rw [h.1.contents_eq, h.2]

theorem length_eq (h : seq.Holds items) : seq.length = items.length := by
  rw [← h.1.length_items, h.2]

/-- Sequences of one list are equal as far as the list equals itself. -/
theorem beq_eq [BEq α] (h : seq.Holds items) (hother : other.Holds items) :
    (seq == other) = (items == items) := by
  show (seq.length == other.length && seq.toList == other.toList) = _
  rw [h.length_eq, hother.length_eq, toList_eq h.1, toList_eq hother.1,
    h.2, hother.2, beq_self_eq_true, Bool.true_and]

end Holds

-- =========================================================== the drafts

/-- The drafts that a caller can open, each with the sequence that it
starts as. -/
inductive Draft.Over : Draft α → Sequence α → Prop where
  | anew : Over Draft.empty Sequence.empty
  | draft {seq : Sequence α} : Reachable seq → Over seq.draft seq

theorem Draft.Over.holds (h : draft.Over seq) :
    draft.Holds seq.contents ∧ seq.Holds seq.contents := by
  have hstart : draft = seq.draft ∧ Sequence.Sound seq := by
    cases h with
    | anew => exact ⟨rfl, sound_empty⟩
    | draft hreachable => exact ⟨rfl, hreachable.sound⟩
  obtain ⟨rfl, hsound⟩ := hstart
  have hholds : seq.Holds seq.contents := ⟨hsound, hsound.contents_eq.symm⟩
  exact ⟨⟨seq, rfl, hholds⟩, hholds⟩

/-- A draft answers any calls as the list of its sequence does, which the
calls edit and read in turn; it refuses positions that the list does not
have and nothing else, closes with that list, and refuses every call
after that. The same edits of the sequence itself are refused at the
same calls and lead to an equal sequence. Only a call that has stopped
keeps a run from that, and the list is more than a crowd then. -/
theorem draft_agrees_with_list [BEq α] (h : draft.Over seq)
    (calls : List (Draft.Call α)) :
    let said := transcript Draft.respond draft calls
    let noted := transcript reply seq.contents calls
    let retraced := transcript retrace seq calls
    Runs said.1 (crowd < noted.2.length)
        (said.1 = noted.1
          ∧ (∀ cause, .error cause ∈ said.1 →
              ∃ index length, cause = .outOfBounds index length)
          ∧ ∃ closed ended, said.2.close = .ok (closed, ended)
              ∧ closed.contents = noted.2 ∧ closed.length = noted.2.length
              ∧ Runs retraced.1 (crowd < noted.2.length)
                  (retraced.1 = noted.1.map (·.map fun _ => ())
                    ∧ retraced.2.contents = noted.2
                    ∧ (closed == retraced.2) = (noted.2 == noted.2))
              ∧ ended.close = .error (.draftClosed "TransientRrbVector")
              ∧ ∀ later, transcript Draft.respond ended later
                  = (later.map fun _ =>
                      .error (.draftClosed "TransientRrbVector"), ended))
      ∧ ∀ values : List α, Completes (ofList values)
          (crowd < values.length) fun built => built.contents = values := by
  intro said noted retraced
  obtain ⟨hdraft, hseq⟩ := h.holds
  refine ⟨(conversation_spec hdraft calls).imp fun hthrough => ?_,
    fun values => (ofList_spec values).imp id fun _ hholds =>
      Holds.contents_eq hholds⟩
  obtain ⟨hanswers, last, hlast, hcloses⟩ := hthrough
  refine ⟨hanswers, ?_, last, ⟨none⟩, ?_, hcloses.contents_eq,
    hcloses.length_eq, (retraced_spec hseq calls).imp ?_, rfl,
    transcript_still respond_closed⟩
  · intro cause hcause
    rw [show said.1 = noted.1 from hanswers] at hcause
    obtain ⟨items, call, hreply⟩ := mem_transcript hcause
    exact reply_refuses hreply.symm
  · rw [show said.2 = last.draft from hlast]
    rfl
  · rintro ⟨hrefusals, hretraced⟩
    exact ⟨hrefusals, hretraced.contents_eq, hcloses.beq_eq hretraced⟩

/-- A draft of a sequence long enough to have a tree, asked for positions
inside, at the end and behind it. -/
theorem draft_agrees_with_list_seventy :
    ∃ seq, ofList (List.range 70) = .ok seq
      ∧ (transcript Draft.respond seq.draft
          [.insert 35 100, .insert 36 101, .insert 73 102, .get? 36,
            .insert 72 103, .replace 73 104, .replace 37 105, .size,
            .pushAll [106, 107], .get? 74, .get? 75]).1
        = [.ok .done, .ok .done, .error (.outOfBounds 73 72),
            .ok (.element (some 101)), .ok .done,
            .error (.outOfBounds 73 73), .ok (.displaced 35),
            .ok (.count 73), .ok .done, .ok (.element (some 107)),
            .ok (.element none)] := by
  obtain ⟨seq, hbuilt, hholds⟩ :=
    ofList_goes (by decide : (List.range 70).length ≤ crowd)
  have hruns := (draft_agrees_with_list (.draft (.ofList hbuilt))
    [.insert 35 100, .insert 36 101, .insert 73 102, .get? 36,
      .insert 72 103, .replace 73 104, .replace 37 105, .size,
      .pushAll [106, 107], .get? 74, .get? 75]).1
  rw [Holds.contents_eq hholds] at hruns
  exact ⟨seq, hbuilt, (hruns.goes (by decide)).1.trans rfl⟩

/-- A draft of a sequence at the brim stops where the list takes in one
element more. -/
theorem draft_agrees_with_list_overflow :
    ∃ start long seq : Sequence Nat,
      ofList (List.range 64) = .ok start ∧ start.doubled 54 = .ok long
        ∧ (List.range 64).foldlM push long = .ok seq
        ∧ Draft.Over seq.draft seq
        ∧ (transcript Draft.respond seq.draft [.push 0]).1
          = [.error (.overflow "multiply")]
        ∧ (transcript reply seq.contents [.push 0]).1 = [.ok .done] := by
  obtain ⟨start, long, seq, hstart, hlong, hseq, hreach, hbrim⟩ :=
    exists_brim (List.length_range : (List.range 64).length = 64)
  refine ⟨start, long, seq, hstart, hlong, hseq, .draft hreach, ?_, rfl⟩
  have hpush : seq.draft.push 0 = .error (.overflow "multiply") := by
    show (do return (← seq.push 0).draft) = _
    rw [hbrim.push_eq]
    rfl
  rw [transcript, Draft.respond, Draft.ask, hpush]
  rfl

end Sequence

end PersistentCollections
