/-
The content of a sequence, and what reads and edits do to it.

The elements of a sequence are those of its tree with the focus put in
at its place (`items`). A sequence is sound when its tree is, the focus
is no longer than 32 and starts inside the tree or at its end, and the
length counts both. Reads answer from that list, and every edit answers
a sound sequence whose list is edited the same way, so no argument
about an edit has to look at a focus or at a tree again. The one other
end of an edit is a number past the words, and `Yields` says with it how
many elements there are then.
-/
import PersistentCollections.Proofs.Sequence.Cut
import PersistentCollections.Proofs.Sequence.Insert
import PersistentCollections.Sequence.Draft

namespace PersistentCollections

namespace Sequence

open Node (Rooted)

variable {α : Type}

-- ======================================================== the content

/-- The elements of a sequence: those of the tree, with the focus at its
place. -/
def items (seq : Sequence α) : List α :=
  seq.root.elements.take seq.focusStart ++ seq.focus
    ++ seq.root.elements.drop seq.focusStart

/-- The elements of a sequence as reads by position answer them. -/
def contents (seq : Sequence α) : List α :=
  (List.range seq.length).filterMap seq.get?

/-- A sequence as the edits build it. -/
structure Sound (seq : Sequence α) : Prop where
  rooted : Rooted seq.root
  focus_le : seq.focus.length ≤ packedWidth
  start_le : seq.focusStart ≤ seq.root.elements.length
  length_eq : seq.length = seq.root.elements.length + seq.focus.length

/-- The elements where the tree divides at the focus. -/
theorem items_mk {root : Node α} {focus before after : List α}
    {start length : Nat} (hroot : root.elements = before ++ after)
    (hstart : start = before.length) :
    items ⟨root, focus, start, length⟩ = before ++ focus ++ after := by
  unfold items
  rw [hroot, hstart, List.take_left, List.drop_left]

/-- Taking up to a place inside the middle of three lists. -/
theorem take_middle {before middle after : List α} {k : Nat}
    (hk : k ≤ middle.length) :
    (before ++ middle ++ after).take (before.length + k)
      = before ++ middle.take k := by
  rw [List.append_assoc, List.take_length_add_append,
    List.take_append_of_le_length hk]

/-- Dropping up to a place inside the middle of three lists. -/
theorem drop_middle {before middle after : List α} {k : Nat}
    (hk : k ≤ middle.length) :
    (before ++ middle ++ after).drop (before.length + k)
      = middle.drop k ++ after := by
  rw [List.append_assoc, List.drop_length_add_append,
    List.drop_append_of_le_length hk]

/-- Reading every position of a list gives the list. -/
theorem filterMap_range_getElem? (l : List α) :
    (List.range l.length).filterMap (fun index => l[index]?) = l := by
  induction l with
  | nil => rfl
  | cons x l ih =>
      rw [List.length_cons, List.range_succ_eq_map, List.filterMap_cons,
        List.filterMap_map]
      exact congrArg (x :: ·) ih

namespace Sound

variable {seq : Sequence α}

/-- The tree divides at the focus. -/
theorem split (h : Sound seq) :
    ∃ before after, seq.root.elements = before ++ after
      ∧ seq.focusStart = before.length
      ∧ seq.items = before ++ seq.focus ++ after
      ∧ seq.length = before.length + seq.focus.length + after.length := by
  have hroot := List.take_append_drop seq.focusStart seq.root.elements
  have hstart : seq.focusStart
      = (seq.root.elements.take seq.focusStart).length := by
    rw [List.length_take, Nat.min_eq_left h.start_le]
  have hlen := congrArg List.length hroot
  rw [List.length_append] at hlen
  refine ⟨_, _, hroot.symm, hstart, items_mk hroot.symm hstart, ?_⟩
  rw [h.length_eq, ← hlen]
  omega

theorem length_items (h : Sound seq) : seq.items.length = seq.length := by
  obtain ⟨before, after, -, -, hitems, hlen⟩ := h.split
  rw [hitems, hlen, List.length_append, List.length_append]

/-- A tree with elements is a sound node. -/
theorem root_sound (h : Sound seq) {index : Nat}
    (hindex : index < seq.root.elements.length) :
    ∃ height, Node.Sound height seq.root := by
  apply h.rooted.sound_of_pos
  rw [h.rooted.size_eq]
  omega

/-- Reading by position answers from the elements. -/
theorem get?_eq (h : Sound seq) (index : Nat) :
    seq.get? index = seq.items[index]? := by
  obtain ⟨before, after, hroot, hstart, hitems, hlen⟩ := h.split
  have hread : ∀ i < before.length + after.length,
      seq.root.get? i = (before ++ after)[i]? := by
    intro i hi
    rw [← List.length_append, ← hroot] at hi
    obtain ⟨height, hsound⟩ := h.root_sound hi
    rw [Node.get?_spec hsound hi, hroot]
  unfold get?
  by_cases hout : seq.length ≤ index
  · rw [if_pos hout, List.getElem?_eq_none]
    rw [h.length_items]
    exact hout
  rw [if_neg hout, hitems]
  unfold inFocus focusEnd treeIndex
  simp only [Bool.and_eq_true, decide_eq_true_eq, hstart]
  by_cases hfocus : before.length ≤ index
      ∧ index < before.length + seq.focus.length
  · rw [if_pos hfocus, List.append_assoc,
      List.getElem?_append_right hfocus.1,
      List.getElem?_append_left (by omega)]
  · rw [if_neg hfocus]
    by_cases hbefore : index < before.length
    · rw [if_pos hbefore, hread index (by omega), List.append_assoc,
        List.getElem?_append_left hbefore, List.getElem?_append_left hbefore]
    · rw [if_neg hbefore, hread _ (by omega),
        List.getElem?_append_right (by omega),
        List.getElem?_append_right (by rw [List.length_append]; omega),
        List.length_append]
      congr 1
      omega

/-- What reads answer are the elements. -/
theorem contents_eq (h : Sound seq) : seq.contents = seq.items := by
  have hread : seq.get? = fun index => seq.items[index]? :=
    funext h.get?_eq
  unfold contents
  rw [hread, ← h.length_items, filterMap_range_getElem?]

end Sound

-- ================================================ building sequences

theorem sound_empty : Sound (empty : Sequence α) where
  rooted := .empty
  focus_le := Nat.zero_le _
  start_le := Nat.zero_le _
  length_eq := by rw [empty, Node.empty, Node.elements]; rfl

theorem items_empty : (empty : Sequence α).items = [] := by
  rw [items, empty, Node.empty, Node.elements]
  rfl

theorem sound_singleton (value : α) : Sound (singleton value) where
  rooted := .empty
  focus_le := by show 1 ≤ packedWidth; decide
  start_le := Nat.zero_le _
  length_eq := by rw [singleton, Node.empty, Node.elements]; rfl

/-- A tree under an empty focus. -/
theorem sound_ofRoot {root : Node α} {length : Nat} (h : Rooted root)
    (hlen : length = root.elements.length) :
    Sound (ofRoot root length) ∧ (ofRoot root length).items = root.elements := by
  subst hlen
  refine ⟨⟨h, Nat.zero_le _, Nat.le_refl _, rfl⟩, ?_⟩
  apply (items_mk (List.append_nil _).symm rfl).trans
  rw [List.append_nil, List.append_nil]

/-- A tree under a focus of one element. -/
theorem sound_focus {root : Node α} {index length : Nat} (value : α)
    (h : Rooted root) (hindex : index ≤ root.elements.length)
    (hlen : length = root.elements.length) :
    Sound ⟨root, [value], index, length + 1⟩
      ∧ items ⟨root, [value], index, length + 1⟩
        = root.elements.take index ++ value :: root.elements.drop index := by
  subst hlen
  refine ⟨⟨h, ?_, hindex, rfl⟩, ?_⟩
  · show 1 ≤ packedWidth
    decide
  · unfold items
    rw [List.append_assoc]
    rfl

-- =============================================================== edits

/-- The edit answers a sound sequence of these elements, or stops at a
number past the words, which takes a crowd. -/
def Yields (answer : Except Failure (Sequence α)) (crowded : Prop)
    (items : List α) : Prop :=
  Completes answer crowded fun seq => Sound seq ∧ seq.items = items

variable {seq : Sequence α} {index : Nat}

/-- Putting the focus into the tree makes a tree of all elements. -/
theorem flushed_spec (h : Sound seq) :
    Completes seq.flushed (crowd ≤ seq.length) fun root =>
      Rooted root ∧ root.elements = seq.items := by
  rw [h.length_eq]
  exact Node.insertRun_spec h.rooted h.focus_le h.start_le

/-- Counting one element more. -/
theorem counted_spec (seq : Sequence α) :
    Completes seq.counted (crowd ≤ seq.length) (· = seq.length + 1) := by
  refine .of_inWord fun hfull => ?_
  have hcrowd : crowd + 1 ≤ wordSize := by decide
  omega

/-- Putting the focus away and starting another one. -/
theorem refocus_spec (h : Sound seq) (value : α)
    (hindex : index ≤ seq.length) :
    Yields (seq.refocus index value) (crowd ≤ seq.length)
      (seq.items.take index ++ value :: seq.items.drop index) := by
  refine (flushed_spec h).bind fun root hroot => ?_
  obtain ⟨hrooted, helem⟩ := hroot
  refine (counted_spec seq).bind fun length hlength => ?_
  subst hlength
  have hlen := h.length_items
  rw [← helem] at hlen ⊢
  exact .result rfl
    (sound_focus value hrooted (show index ≤ _ by omega) hlen.symm)

/-- Appending an element. -/
theorem push_spec (h : Sound seq) (value : α) :
    Yields (seq.push value) (crowd ≤ seq.length)
      (seq.items ++ [value]) := by
  obtain ⟨before, after, hroot, hstart, hitems, hlen⟩ := h.split
  unfold push focusEnd
  by_cases hroom : seq.focusStart + seq.focus.length = seq.length
      ∧ seq.focus.length < packedWidth
  · rw [if_pos (by simpa using hroom)]
    have hafter : after = [] := by
      apply List.eq_nil_of_length_eq_zero
      omega
    subst hafter
    refine (counted_spec seq).bind fun length hlength => ?_
    subst hlength
    refine .result rfl ⟨⟨h.rooted, ?_, h.start_le, ?_⟩, ?_⟩
    · rw [List.length_append, List.length_singleton]
      exact hroom.2
    · show seq.length + 1 = _
      rw [List.length_append, h.length_eq]
      rfl
    · apply (items_mk hroot hstart).trans
      rw [hitems, List.append_nil, List.append_nil, List.append_assoc]
  · rw [if_neg (by simpa using hroom)]
    have := refocus_spec h value (Nat.le_refl _)
    rwa [← h.length_items, List.take_length, List.drop_length,
      h.length_items] at this

/-- Appending an element, as an insertion at the end. -/
theorem push_spec_insert (h : Sound seq) (value : α) :
    Yields (seq.push value) (crowd ≤ seq.length)
      (seq.items.take seq.length ++ value
        :: seq.items.drop seq.length) := by
  have := push_spec h value
  rwa [← h.length_items, List.take_length, List.drop_length,
    h.length_items]

/-- Inserting an element before any position up to the end. -/
theorem insert_spec (h : Sound seq) (value : α)
    (hindex : index ≤ seq.length) :
    Yields (seq.insert index value) (crowd ≤ seq.length)
      (seq.items.take index ++ value :: seq.items.drop index) := by
  unfold insert
  rw [if_neg (Nat.not_lt_of_le hindex)]
  by_cases hend : index = seq.length
  · subst hend
    rw [if_pos (beq_self_eq_true _)]
    exact push_spec_insert h value
  · rw [if_neg (by simpa using hend)]
    exact refocus_spec h value hindex

/-- Inserting next to the focus does the same. -/
theorem insertNear_spec (h : Sound seq) (value : α)
    (hindex : index ≤ seq.length) :
    Yields (seq.insertNear index value) (crowd ≤ seq.length)
      (seq.items.take index ++ value :: seq.items.drop index) := by
  unfold insertNear focusEnd
  rw [if_neg (Nat.not_lt_of_le hindex)]
  by_cases hend : index = seq.length
  · subst hend
    rw [if_pos (beq_self_eq_true _)]
    exact push_spec_insert h value
  rw [if_neg (by simpa using hend)]
  by_cases hnear : (seq.focusStart ≤ index
      ∧ index ≤ seq.focusStart + seq.focus.length)
      ∧ seq.focus.length < packedWidth
  · obtain ⟨before, after, hroot, hstart, hitems, hlen⟩ := h.split
    obtain ⟨k, rfl⟩ := Nat.exists_eq_add_of_le hnear.1.1
    have hk : k ≤ seq.focus.length := by omega
    rw [if_pos (by simpa using hnear), Nat.add_sub_cancel_left,
      Run.insert?_eq hk]
    refine (counted_spec seq).bind fun length hlength => ?_
    subst hlength
    refine .result rfl ⟨⟨h.rooted, ?_, h.start_le, ?_⟩, ?_⟩
    · simp only [List.length_append, List.length_take, List.length_drop,
        List.length_cons, List.length_nil]
      omega
    · simp only [List.length_append, List.length_take, List.length_drop,
        List.length_cons, List.length_nil]
      rw [h.length_eq]
      omega
    · apply (items_mk hroot hstart).trans
      rw [hitems, hstart, take_middle hk, drop_middle hk]
      simp
  · rw [if_neg (by simpa using hnear)]
    exact refocus_spec h value hindex

/-- Replacing an element counts nothing. -/
theorem set_spec (h : Sound seq) (value : α) (hindex : index < seq.length) :
    Yields (seq.set index value) False (seq.items.set index value) := by
  obtain ⟨before, after, hroot, hstart, hitems, hlen⟩ := h.split
  unfold set inFocus focusEnd
  rw [if_neg (Nat.not_le_of_lt hindex)]
  simp only [Bool.and_eq_true, decide_eq_true_eq]
  by_cases hfocus : seq.focusStart ≤ index
      ∧ index < seq.focusStart + seq.focus.length
  · obtain ⟨k, rfl⟩ := Nat.exists_eq_add_of_le hfocus.1
    rw [if_pos hfocus, Nat.add_sub_cancel_left, Run.set?_eq (by omega)]
    refine .result rfl ⟨⟨h.rooted, ?_, h.start_le, ?_⟩, ?_⟩
    · rw [List.length_set]
      exact h.focus_le
    · rw [List.length_set]
      exact h.length_eq
    · apply (items_mk hroot hstart).trans
      rw [hitems, hstart, List.append_assoc, List.append_assoc,
        List.set_append_right _ _ (Nat.le_add_right _ _),
        Nat.add_sub_cancel_left, List.set_append_left _ _ (by omega)]
  · rw [if_neg hfocus]
    have hinside : seq.treeIndex index < seq.root.elements.length := by
      unfold treeIndex
      have := h.length_eq
      have := h.start_le
      split <;> omega
    obtain ⟨height, hsound⟩ := h.root_sound hinside
    obtain ⟨root, hset, hchanged, helem, -⟩ :=
      Node.set?_spec value hsound hinside
    have hsame : root.elements.length = seq.root.elements.length := by
      rw [helem, List.length_set]
    rw [hset]
    refine .result rfl ⟨⟨.sound hchanged, h.focus_le, ?_, ?_⟩, ?_⟩
    · rw [hsame]
      exact h.start_le
    · rw [hsame]
      exact h.length_eq
    · unfold treeIndex at helem
      rw [hroot] at helem
      rw [hitems, List.append_assoc]
      by_cases hbefore : index < seq.focusStart
      · rw [if_pos hbefore, List.set_append_left _ _ (by omega)] at helem
        rw [List.set_append_left _ _ (by omega)]
        refine (items_mk helem (by rw [List.length_set, hstart])).trans ?_
        rw [List.append_assoc]
      · rw [if_neg hbefore, List.set_append_right _ _ (by omega)] at helem
        rw [List.set_append_right _ _ (by omega),
          List.set_append_right _ _ (by omega)]
        apply (items_mk helem hstart).trans
        rw [List.append_assoc, Nat.sub_right_comm]

-- =========================================================== refusals

/-- Inserting behind the end is refused. -/
theorem insert_refused (value : α) (h : seq.length < index) :
    seq.insert index value = .error (.outOfBounds index seq.length) := by
  unfold insert refuse
  rw [if_pos h]

/-- A draft refuses the same insertions. -/
theorem insertNear_refused (value : α) (h : seq.length < index) :
    seq.insertNear index value = .error (.outOfBounds index seq.length) := by
  unfold insertNear refuse
  rw [if_pos h]

/-- Replacing an element that is not there is refused. -/
theorem set_refused (value : α) (h : seq.length ≤ index) :
    seq.set index value = .error (.outOfBounds index seq.length) := by
  unfold set refuse
  rw [if_pos h]

-- ======================================================= runs of edits

/-- A sequence of as many elements as its list. -/
theorem Sound.length_of_items {items : List α} (h : Sound seq)
    (hitems : seq.items = items) : seq.length = items.length := by
  rw [← h.length_items, hitems]

/-- Appending elements one after the other. -/
theorem pushAll_spec (values : List α) :
    ∀ {seq : Sequence α}, Sound seq →
      Yields (values.foldlM push seq) (crowd < seq.length + values.length)
        (seq.items ++ values) := by
  induction values with
  | nil =>
      intro seq h
      exact .result rfl ⟨h, (List.append_nil _).symm⟩
  | cons value rest ih =>
      intro seq h
      rw [List.foldlM_cons, List.length_cons]
      refine Completes.bind ((push_spec h value).imp (by omega)
        fun _ => id) fun pushed hpushed => ?_
      obtain ⟨hsound, hitems⟩ := hpushed
      have hlen := hsound.length_of_items hitems
      rw [List.length_append, h.length_items] at hlen
      have hall := ih hsound
      rw [hlen, hitems, List.append_assoc] at hall
      refine hall.imp ?_ fun _ => id
      rw [List.length_singleton]
      omega

/-- Building a sequence from a list. -/
theorem ofList_spec (values : List α) :
    Yields (ofList values) (crowd < values.length) values := by
  have hall : Yields (ofList values) (crowd < 0 + values.length)
      (items empty ++ values) := pushAll_spec values sound_empty
  rwa [items_empty, List.nil_append, Nat.zero_add] at hall

/-- A list that is no crowd makes a sequence. -/
theorem ofList_goes {values : List α} (h : values.length ≤ crowd) :
    ∃ seq, ofList values = .ok seq ∧ Sound seq ∧ seq.items = values :=
  (ofList_spec values).goes (Nat.not_lt_of_le h)

/-- Inserting elements one after the other. -/
theorem insertAllNear_spec (values : List α) :
    ∀ {seq : Sequence α} {index : Nat}, Sound seq → index ≤ seq.length →
      Yields (seq.insertAllNear index values)
        (crowd < seq.length + values.length)
        (seq.items.take index ++ values ++ seq.items.drop index) := by
  induction values with
  | nil =>
      intro seq index h _
      refine .result rfl ⟨h, ?_⟩
      rw [List.append_nil, List.take_append_drop]
  | cons value rest ih =>
      intro seq index h hindex
      rw [insertAllNear, List.length_cons]
      refine Completes.bind ((insertNear_spec h value hindex).imp (by omega)
        fun _ => id) fun one hone => ?_
      obtain ⟨hsound, hitems⟩ := hone
      have htake : (seq.items.take index).length = index := by
        rw [List.length_take, h.length_items, Nat.min_eq_left hindex]
      have hlen : one.length = seq.length + 1 := by
        rw [hsound.length_of_items hitems, List.length_append,
          List.length_cons, htake, List.length_drop, h.length_items]
        omega
      have hall := ih hsound (show index + 1 ≤ one.length by omega)
      have hsplit : one.items
          = (seq.items.take index ++ [value]) ++ seq.items.drop index := by
        rw [hitems, List.append_assoc]
        rfl
      have hnext : (seq.items.take index ++ [value]).length = index + 1 := by
        rw [List.length_append, htake]
        rfl
      have hsame : (seq.items.take index ++ [value]) ++ rest
          = seq.items.take index ++ value :: rest := by
        rw [List.append_assoc]
        rfl
      rw [hlen, hsplit, List.take_left' hnext, List.drop_left' hnext, hsame]
        at hall
      refine hall.imp ?_ fun _ => id
      omega

end Sequence

end PersistentCollections
