/-
Cutting sequences, putting them together, and taking an element out.

Each of the three answers on every position it admits, unless there is a
crowd, and answers what the same edit makes of the list of elements; on
any other position it refuses with that position and the length.
Concatenation admits any two sequences, and takes the path their lengths
ask for: a short side is added to the other one element by element, and
two long sides are joined tree to tree.
-/
import PersistentCollections.Proofs.Sequence.Join
import PersistentCollections.Proofs.Sequence.Walk
import PersistentCollections.Sequence.Split

namespace PersistentCollections

namespace Sequence

variable {α : Type} {seq : Sequence α} {index : Nat}

-- ============================================================== cutting

/-- Two sound sequences that hold the elements on either side of a
position. -/
def Parts (seq : Sequence α) (index : Nat)
    (halves : Sequence α × Sequence α) : Prop :=
  (Sound halves.1 ∧ halves.1.items = seq.items.take index)
    ∧ (Sound halves.2 ∧ halves.2.items = seq.items.drop index)

/-- A cut divides the elements. -/
theorem splitAt_spec (h : Sound seq) (hpos : 0 < index)
    (hindex : index ≤ seq.length) :
    Completes (seq.splitAt index) (crowd ≤ seq.length)
      (Parts seq index) := by
  have hadmitted : ¬(index = 0 ∨ seq.length < index) := by omega
  unfold splitAt focusEnd
  simp only [Bool.or_eq_true, beq_iff_eq, Bool.and_eq_true,
    decide_eq_true_eq]
  rw [if_neg hadmitted]
  by_cases hfocus : seq.focusStart ≤ index
      ∧ index ≤ seq.focusStart + seq.focus.length
  · obtain ⟨before, after, hroot, hstart, hitems, hlen⟩ := h.split
    obtain ⟨rootLeft, rootRight, hsplit, hl, hr, hleft, hright⟩ :=
      Node.split?_spec h.rooted seq.focusStart
    obtain ⟨k, rfl⟩ := Nat.exists_eq_add_of_le hfocus.1
    have hk : k ≤ seq.focus.length := by omega
    rw [hroot, hstart, List.take_left] at hleft
    rw [hroot, hstart, List.drop_left] at hright
    rw [if_pos hfocus, hsplit, Nat.add_sub_cancel_left, Run.cut?_eq hk]
    refine .result rfl
      ⟨⟨⟨hl, ?_, ?_, ?_⟩, ?_⟩, ⟨hr, ?_, Nat.zero_le _, ?_⟩, ?_⟩
    · exact Nat.le_trans (List.length_take_le' _ _) h.focus_le
    · exact Nat.le_of_eq (hstart.trans (congrArg _ hleft.symm))
    · show seq.focusStart + k = _
      rw [hleft, List.length_take, hstart, Nat.min_eq_left hk]
    · rw [hitems, hstart, take_middle hk]
      have hroot : rootLeft.elements = before ++ [] := by
        rw [hleft, List.append_nil]
      exact (items_mk hroot rfl).trans (List.append_nil _)
    · show (seq.focus.drop k).length ≤ packedWidth
      rw [List.length_drop]
      exact Nat.le_trans (Nat.sub_le _ _) h.focus_le
    · show seq.length - (seq.focusStart + k) = _ + (seq.focus.drop k).length
      rw [hright, List.length_drop]
      omega
    · rw [hitems, hstart, drop_middle hk]
      have hroot : rootRight.elements = [] ++ after := hright
      exact (items_mk hroot rfl).trans rfl
  · rw [if_neg hfocus]
    refine (flushed_spec h).bind fun root hroot => ?_
    obtain ⟨hrooted, helem⟩ := hroot
    obtain ⟨rootLeft, rootRight, hsplit, hl, hr, hleft, hright⟩ :=
      Node.split?_spec hrooted index
    rw [helem] at hleft hright
    have hitems := h.length_items
    have hlenl : index = rootLeft.elements.length := by
      rw [hleft, List.length_take]
      omega
    have hlenr : seq.length - index = rootRight.elements.length := by
      rw [hright, List.length_drop, hitems]
    obtain ⟨hsoundl, hiteml⟩ := sound_ofRoot hl hlenl
    obtain ⟨hsoundr, hitemr⟩ := sound_ofRoot hr hlenr
    rw [hsplit]
    exact .result rfl
      ⟨⟨hsoundl, hiteml.trans hleft⟩, hsoundr, hitemr.trans hright⟩

/-- A cut before the first element or behind the end is refused. -/
theorem splitAt_refused (h : index = 0 ∨ seq.length < index) :
    seq.splitAt index = .error (.outOfBounds index seq.length) := by
  unfold splitAt refuse
  rw [if_pos (by simpa using h)]

/-- Both halves of a cut are sound. -/
theorem splitAt_sound {left right : Sequence α} (h : Sound seq)
    (hsplit : seq.splitAt index = .ok (left, right)) :
    Sound left ∧ Sound right := by
  by_cases hindex : index = 0 ∨ seq.length < index
  · rw [splitAt_refused hindex] at hsplit
    cases hsplit
  · obtain ⟨⟨hleft, -⟩, hright, -⟩ :=
      (splitAt_spec h (by omega) (by omega)).of_ok hsplit
    exact ⟨hleft, hright⟩

-- ======================================================== concatenation

/-- Any two sequences can be put together. -/
theorem append_spec {left right : Sequence α} (hl : Sound left)
    (hr : Sound right) :
    Yields (left.append right) (crowd < left.length + right.length)
      (left.items ++ right.items) := by
  have hempty : ∀ {seq : Sequence α}, Sound seq → seq.isEmpty = true →
      seq.items = [] := by
    intro seq h hnone
    apply List.eq_nil_of_length_eq_zero
    rw [h.length_items]
    exact eq_of_beq hnone
  unfold append
  by_cases hnoright : right.isEmpty = true
  · rw [if_pos hnoright, hempty hr hnoright, List.append_nil]
    exact .result rfl ⟨hl, rfl⟩
  rw [if_neg hnoright]
  by_cases hnoleft : left.isEmpty = true
  · rw [if_pos hnoleft, hempty hl hnoleft]
    exact .result rfl ⟨hr, rfl⟩
  rw [if_neg hnoleft]
  by_cases hshort : right.length < packedWidth
  · rw [if_pos hshort, toList_eq hr, ← hr.length_items]
    exact pushAll_spec _ hl
  rw [if_neg hshort]
  by_cases hshortleft : left.length < packedWidth
  · rw [if_pos hshortleft, toList_eq hl, ← hl.length_items, Nat.add_comm]
    exact insertAllNear_spec _ hr (Nat.zero_le _)
  rw [if_neg hshortleft]
  have hwidth : packedWidth = 32 := rfl
  refine Completes.bind ((flushed_spec hl).imp (by omega) fun _ => id)
    fun rootl hrootl => ?_
  refine Completes.bind ((flushed_spec hr).imp (by omega) fun _ => id)
    fun rootr hrootr => ?_
  obtain ⟨root, hjoin, hrooted, helem⟩ :=
    Node.join?_spec hrootl.1 hrootr.1
  rw [hrootl.2, hrootr.2] at helem
  have hlen : left.length + right.length = root.elements.length := by
    rw [helem, List.length_append, hl.length_items, hr.length_items]
  obtain ⟨hsound, hitems⟩ := sound_ofRoot hrooted hlen
  rw [hjoin]
  refine Completes.bind (P := (· = left.length + right.length))
    (.of_inWord fun hfull => ?_) fun length hlength => ?_
  · have hcrowd : crowd < wordSize := by decide
    omega
  · subst hlength
    exact .result rfl ⟨hsound, hitems.trans helem⟩

-- ============================================ taking one element out

/-- Taking out an element leaves the others in place. -/
theorem eraseAt_spec (h : Sound seq) (hindex : index < seq.length) :
    Yields (seq.eraseAt index) (crowd ≤ seq.length)
      (seq.items.eraseIdx index) := by
  rw [List.eraseIdx_eq_take_drop_succ]
  unfold eraseAt
  rw [if_neg (Nat.not_le_of_lt hindex)]
  by_cases hzero : index = 0
  · subst hzero
    rw [if_pos (beq_self_eq_true _)]
    exact (splitAt_spec h Nat.one_pos hindex).bind fun halves hhalves =>
      .result rfl hhalves.2
  · rw [if_neg (by simpa using hzero)]
    refine (splitAt_spec h (by omega) (Nat.le_of_lt hindex)).bind ?_
    rintro ⟨left, right⟩ ⟨⟨hl, hiteml⟩, hr, hitemr⟩
    have hlenl := hl.length_of_items hiteml
    have hlenr := hr.length_of_items hitemr
    rw [List.length_take, h.length_items] at hlenl
    rw [List.length_drop, h.length_items] at hlenr
    refine Completes.bind ((splitAt_spec hr Nat.one_pos (by omega)).imp
      (by omega) fun _ => id) ?_
    rintro ⟨one, rest⟩ ⟨-, hrest, hitem⟩
    have hlen := hrest.length_of_items hitem
    rw [List.length_drop, hr.length_items] at hlen
    have happend := append_spec hl hrest
    rw [hiteml, hitem, hitemr, List.drop_drop] at happend
    exact happend.imp (by omega) fun _ => id

/-- Taking out an element that is not there is refused. -/
theorem eraseAt_refused (h : seq.length ≤ index) :
    seq.eraseAt index = .error (.outOfBounds index seq.length) := by
  unfold eraseAt refuse
  rw [if_pos h]

end Sequence

end PersistentCollections
