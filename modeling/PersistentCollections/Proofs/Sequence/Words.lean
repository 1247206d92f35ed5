/-
What words count: the numbers that a sequence keeps.

An edit stops at the first number past the words, so none is ever kept.
The length of a reachable sequence fits into a word (`length_lt`): each
edit that makes a sequence longer counts before it answers, and the
others leave no more elements than there were. Every number in the tree
is then bounded by the length. Sizes and running totals count elements of
the sequence, and the bits that a packed branch shifts a position by are
bounded because a branch of more than one child holds one full child
(`Sound.counts`). So reads, which only compare, subtract and shift these
numbers, never come to one that words cannot hold.

There are sequences as long as words can count (`exists_longest`), made
by joins, and nothing can be appended to them.
-/
import PersistentCollections.Proofs.Lockstep
import PersistentCollections.Proofs.Sequence.Doubling

namespace PersistentCollections

/-- What is counted in a word is below the words. -/
theorem inWord_fits (operation : String) (number : Nat) :
    Gives (inWord operation number) (· < wordSize) := by
  intro counted hcounted
  unfold inWord at hcounted
  split at hcounted
  · cases hcounted
    assumption
  · cases hcounted

namespace Sequence

variable {α : Type} {seq : Sequence α}

-- ============================================================= lengths

/-- Words can count the elements. -/
def Fits (seq : Sequence α) : Prop := seq.length < wordSize

theorem fits_empty : Fits (empty : Sequence α) := by
  show 0 < wordSize
  decide

/-- The number of one element more is counted. -/
theorem refocus_fits (seq : Sequence α) (index : Nat) (value : α) :
    Gives (seq.refocus index value) Fits :=
  .after fun _ => (inWord_fits "add" _).bind fun _ hlength => .ok hlength

theorem push_fits (seq : Sequence α) (value : α) :
    Gives (seq.push value) Fits := by
  unfold push
  split
  · exact (inWord_fits "add" _).bind fun _ hlength => .ok hlength
  · exact refocus_fits seq _ value

theorem pushAll_fits (h : Fits seq) (values : List α) :
    Gives (values.foldlM push seq) Fits :=
  Gives.foldlM (fun value _ => fun _ => push_fits _ value) h

theorem insert_fits (seq : Sequence α) (index : Nat) (value : α) :
    Gives (seq.insert index value) Fits := by
  unfold insert
  split
  · exact .refused
  · split
    · exact push_fits seq value
    · exact refocus_fits seq index value

theorem insertNear_fits (seq : Sequence α) (index : Nat) (value : α) :
    Gives (seq.insertNear index value) Fits := by
  unfold insertNear
  split
  · exact .refused
  · split
    · exact push_fits seq value
    · split
      · exact .after fun _ =>
          (inWord_fits "add" _).bind fun _ hlength => .ok hlength
      · exact refocus_fits seq index value

theorem insertAllNear_fits (values : List α) :
    ∀ {seq : Sequence α} {index : Nat}, Fits seq →
      Gives (seq.insertAllNear index values) Fits := by
  induction values with
  | nil => exact fun h => .ok h
  | cons value rest ih =>
      intro seq index _
      rw [insertAllNear]
      exact (insertNear_fits seq index value).bind fun _ hone => ih hone

/-- Replacing an element leaves the length. -/
theorem set_fits (h : Fits seq) (index : Nat) (value : α) :
    Gives (seq.set index value) Fits := by
  unfold set
  split
  · exact .refused
  · split
    · exact .after fun _ => .ok h
    · exact .after fun _ => .ok h

/-- Both parts of a cut are no longer than the whole. -/
theorem splitAt_fits (h : Fits seq) (index : Nat) :
    Gives (seq.splitAt index) fun (left, right) =>
      Fits left ∧ Fits right := by
  have hright : seq.length - index < wordSize :=
    Nat.lt_of_le_of_lt (Nat.sub_le _ _) h
  unfold splitAt
  split
  case isTrue => exact .refused
  case isFalse hadmitted =>
    have hleft : index < wordSize := by
      rw [Bool.or_eq_true, decide_eq_true_eq, not_or] at hadmitted
      exact Nat.lt_of_le_of_lt (Nat.le_of_not_lt hadmitted.2) h
    split
    · exact .after fun _ => .after fun _ => .ok ⟨hleft, hright⟩
    · exact .after fun _ => .after fun _ => .ok ⟨hleft, hright⟩

theorem append_fits {left right : Sequence α} (hl : Fits left)
    (hr : Fits right) : Gives (left.append right) Fits := by
  unfold append
  split
  · exact .ok hl
  split
  · exact .ok hr
  split
  · exact pushAll_fits hl right.toList
  split
  · exact insertAllNear_fits left.toList hr
  · exact .after fun _ => .after fun _ => .after fun _ =>
      (inWord_fits "add" _).bind fun _ hlength => .ok hlength

theorem eraseAt_fits (h : Fits seq) (index : Nat) :
    Gives (seq.eraseAt index) Fits := by
  unfold eraseAt
  split
  · exact .refused
  split
  · exact (splitAt_fits h 1).bind fun _ hparts => .ok hparts.2
  · exact (splitAt_fits h index).bind fun _ hparts =>
      (splitAt_fits hparts.2 1).bind fun _ hrest =>
        append_fits hparts.1 hrest.2

-- ============================================================== drafts

namespace Draft

variable {draft : Draft α}

/-- Words can count the elements of a draft that is not closed. -/
def Fits (draft : Draft α) : Prop :=
  ∀ seq, draft.content = some seq → Sequence.Fits seq

theorem draft_fits (h : Sequence.Fits seq) : Fits seq.draft := by
  intro content hcontent
  cases hcontent
  exact h

theorem after_fits (h : Fits draft) (edit : Edit α) :
    Fits (draft.after edit) := by
  obtain ⟨content⟩ := draft
  cases content with
  | none => cases edit <;> exact h
  | some seq =>
      have hseq : Sequence.Fits seq := h seq rfl
      cases edit with
      | push value =>
          exact ((push_fits seq value).bind fun _ hpushed =>
            .ok (draft_fits hpushed)).getD h
      | pushAll values =>
          exact ((pushAll_fits hseq values).bind fun _ hpushed =>
            .ok (draft_fits hpushed)).getD h
      | insert index value =>
          exact ((insertNear_fits seq index value).bind
            fun _ hinserted => .ok (draft_fits hinserted)).getD h
      | replace index value =>
          have hreplace : Gives (replace ⟨some seq⟩ index value)
              fun found => Fits found.2 := by
            show Gives (if seq.length ≤ index then _ else _) _
            split
            · exact .refused
            · exact .after fun _ => (set_fits hseq index value).bind
                fun _ hset => .ok (draft_fits hset)
          exact (Gives.map hreplace).getD h
      | close =>
          intro content hcontent
          cases hcontent

theorem run_fits (edits : List (Edit α)) (h : Fits draft) :
    Fits (edits.foldl after draft) :=
  List.foldlRecOn edits after h fun _ hkept edit _ => after_fits hkept edit

end Draft

/-- No sequence that edits build has more elements than words can
count. -/
theorem Reachable.length_lt {seq : Sequence α} (h : Reachable seq) :
    seq.length < wordSize := by
  change Fits seq
  induction h with
  | empty => exact fits_empty
  | singleton value => show 1 < wordSize; decide
  | ofList hbuilt => exact pushAll_fits fits_empty _ _ hbuilt
  | push _ hpush ih => exact push_fits _ _ _ hpush
  | insert _ hinsert ih => exact insert_fits _ _ _ _ hinsert
  | set _ hset ih => exact set_fits ih _ _ _ hset
  | eraseAt _ herase ih => exact eraseAt_fits ih _ _ herase
  | left _ hsplit ih => exact (splitAt_fits ih _ _ hsplit).1
  | right _ hsplit ih => exact (splitAt_fits ih _ _ hsplit).2
  | append _ _ happend ihleft ihright =>
      exact append_fits ihleft ihright _ happend
  | draft _ hclose ih =>
      exact Draft.run_fits _ (Draft.draft_fits ih) _
        (Draft.close_content hclose)

-- ================================================ the longest sequence

/-- Sequences of every length that is one less than a doubling leads
to. -/
theorem exists_long {values : List α} (h : values.length = 64) :
    ∀ {times : Nat}, times ≤ 58 →
      ∃ (seq : Sequence α) (root : Node α), Reachable seq
        ∧ seq.flushed = .ok root ∧ seq.length + 1 = 64 <<< times := by
  obtain ⟨start, hstart, hdoubles⟩ := ofList_doubles h
  intro times
  induction times with
  | zero =>
      intro _
      have hcount : (values.drop 1).length = 63 := by
        rw [List.length_drop, h]
      obtain ⟨seq, hseq, hsound, hitems⟩ :=
        ofList_goes (hcount ▸ (by decide : 63 ≤ crowd))
      have hlength := hsound.length_of_items hitems
      rw [hcount] at hlength
      obtain ⟨root, hflush, -⟩ := (flushed_spec hsound).goes
        (by rw [hlength]; decide)
      exact ⟨seq, root, .ofList hseq, hflush, by rw [hlength]; rfl⟩
  | succ times ih =>
      intro htimes
      obtain ⟨seq, root, hreach, hflush, hlength⟩ := ih (by omega)
      obtain ⟨long, hlong, hlongs⟩ :=
        doubled_doubles hdoubles (by omega : times ≤ 57)
      obtain ⟨other, hother, -⟩ := hlongs.flushes
      have hreachlong := Reachable.doubled (.ofList hstart) hlong
      obtain ⟨joined, hjoin, -⟩ := Node.join?_spec
        ((flushed_spec hreachlong.sound).of_ok hother).1
        ((flushed_spec hreach.sound).of_ok hflush).1
      have hatleast := hlongs.le_length
      have hnext := hlongs.twice
      have hfits : 64 <<< (times + 1) ≤ wordSize :=
        Nat.le_trans (doubled_mono htimes) (by decide)
      rw [← hlongs.length_eq] at hlength
      have happend := append_joined hother hflush hjoin
        (show 32 ≤ _ by omega) (show 32 ≤ _ by omega) (by omega)
      exact ⟨_, joined, .append hreachlong hreach happend,
        ofRoot_flushed _ _, show long.length + seq.length + 1 = _ by omega⟩

/-- Where words can count no other element, none is appended. -/
theorem push_full {root : Node α} (hflush : seq.flushed = .ok root)
    (hfull : wordSize ≤ seq.length + 1) (value : α) :
    seq.push value = .error (.overflow "add") := by
  have hcount : seq.counted = .error (.overflow "add") :=
    inWord_of_le _ hfull
  unfold push
  split
  · rw [hcount]
    rfl
  · unfold refocus
    rw [hflush, hcount]
    rfl

/-- There are sequences as long as words can count, and none of them can
be appended to. -/
theorem exists_longest {values : List α} (h : values.length = 64) :
    ∃ seq : Sequence α, Reachable seq ∧ seq.length + 1 = wordSize
      ∧ ∀ value, seq.push value = .error (.overflow "add") := by
  obtain ⟨seq, root, hreach, hflush, hlength⟩ :=
    exists_long h (Nat.le_refl 58)
  have hfull : 64 <<< 58 = wordSize := by decide
  rw [hfull] at hlength
  exact ⟨seq, hreach, hlength,
    push_full hflush (Nat.le_of_eq hlength.symm)⟩

-- ================================================ numbers of the tree

namespace Node

/-- Whether a node is another one or lies below it. -/
inductive Part (part : Node α) : Node α → Prop where
  | self : Part part part
  | deeper {child node : Node α} (inner : Part part child)
      (mem : child ∈ node.children) : Part part node

/-- The numbers that a node keeps fit into words, and so does the room of
a child that positions are divided by. -/
def Counts : Node α → Prop
  | leaf values => values.length < wordSize
  | packed shift size _ => 1 <<< shift < wordSize ∧ size < wordSize
  | relaxed table _ => ∀ total ∈ table, total < wordSize

/-- The size of one of several nodes is no more than that of all. -/
theorem size_le_sum {child : Node α} {children : List (Node α)}
    (h : child ∈ children) :
    child.size ≤ SizeTable.sum (children.map size) := by
  obtain ⟨before, after, rfl⟩ := List.append_of_mem h
  rw [List.map_append, List.map_cons, SizeTable.sum_append,
    SizeTable.sum_cons]
  omega

/-- A running total is no more than the sum. -/
theorem total_le_sum {sizes : List Nat} {total : Nat}
    (h : total ∈ SizeTable.totals 0 sizes) :
    total ≤ SizeTable.sum sizes := by
  obtain ⟨part, hpart⟩ := List.mem_iff_getElem?.mp h
  have hlt : part < sizes.length := by
    obtain ⟨hlt, -⟩ := List.getElem?_eq_some_iff.mp hpart
    rwa [SizeTable.length_totals] at hlt
  have hsplit := SizeTable.sum_append (sizes.take (part + 1))
    (sizes.drop (part + 1))
  rw [List.take_append_drop] at hsplit
  rw [SizeTable.getElem?_totals 0 hlt, Option.some.injEq] at hpart
  omega

namespace Sound

variable {height : Nat} {node : Node α}

/-- A child is no larger than its parent. -/
theorem size_le {child : Node α} (h : Sound (height + 1) node)
    (hchild : child ∈ node.children) : child.size ≤ node.size := by
  cases h with
  | packed nonempty fits wide packs sound => exact size_le_sum hchild
  | relaxed nonempty fits wide sound =>
      rw [size_relaxed nonempty]
      exact size_le_sum hchild

/-- What lies in a sound tree is sound and no larger than the tree. -/
theorem part {part : Node α} (hpart : Part part node) :
    ∀ {height : Nat}, Sound height node →
      ∃ lower, Sound lower part ∧ part.size ≤ node.size := by
  induction hpart with
  | self => exact fun h => ⟨_, h, Nat.le_refl _⟩
  | @deeper child node inner mem ih =>
      intro height h
      cases height with
      | zero =>
          cases h with
          | leaf nonempty fits => cases mem
      | succ height =>
          obtain ⟨lower, hlower, hle⟩ := ih (h.children_sound.2.2 _ mem)
          exact ⟨lower, hlower, Nat.le_trans hle (h.size_le mem)⟩

/-- The numbers of a sound node fit into words if its size does. -/
theorem counts (h : Sound height node) (hsize : node.size < wordSize) :
    node.Counts := by
  cases h with
  | leaf nonempty fits => exact hsize
  | @packed height children nonempty fits wide packs sound =>
      refine ⟨?_, hsize⟩
      change capacity height < wordSize
      rcases Nat.lt_or_ge (capacity (height + 1)) wordSize with hlow | htall
      · exact Nat.lt_of_le_of_lt (capacity_mono (Nat.le_succ _)) hlow
      · -- there is a second child, so the first one is full
        match children, wide htall with
        | first :: second :: rest, _ =>
            have hfull := (packs_cons_cons.mp packs).1.1
            rw [← hfull]
            exact Nat.lt_of_le_of_lt (size_le_sum (by simp)) hsize
  | @relaxed height children nonempty fits wide sound =>
      rw [size_relaxed nonempty] at hsize
      exact fun total htotal =>
        Nat.lt_of_le_of_lt (total_le_sum htotal) hsize

end Sound

end Node

/-- All numbers that a sequence keeps fit into words: the length and
those of every node of the tree. -/
theorem Reachable.counts (h : Reachable seq) :
    seq.length < wordSize
      ∧ ∀ node, Node.Part node seq.root → node.Counts := by
  have hlength := h.length_lt
  have hsize : seq.root.size < wordSize := by
    have hcount := h.sound.length_eq
    rw [h.sound.rooted.size_eq]
    omega
  refine ⟨hlength, fun node hnode => ?_⟩
  obtain ⟨root, focus, start, length⟩ := seq
  cases h.sound.rooted with
  | empty =>
      cases hnode with
      | self => exact hsize
      | deeper inner mem => cases mem
  | sound hroot =>
      obtain ⟨height, hsound, hle⟩ := Node.Sound.part hnode hroot
      exact hsound.counts (Nat.lt_of_le_of_lt hle hsize)

end Sequence

end PersistentCollections
