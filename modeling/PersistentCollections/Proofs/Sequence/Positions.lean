/-
Edits and joins, as a caller sees them.

A position is admitted or it is not. On one that is admitted an edit
goes through, unless the sequence is a crowd, and reads of what it
answers give the list that reads gave before, with the same edit made to
it; any other position is refused, with the position and the length.
Where the focus lies, how the tree is cut and joined and which way an
element is put into it show in neither.

The exception is not an empty one. Each edit that may have to put the
focus away is shown to stop at the brim, which 54 joins and 64
appended elements lead to.
-/
import PersistentCollections.Proofs.Sequence.Doubling

namespace PersistentCollections

-- ============================================= positions of an edit

/-- An answer that is there, and as said, exactly where it is admitted;
everywhere else there is this one refusal. -/
structure Admits {β : Type} (answer : Except Failure β) (admitted : Prop)
    (refusal : Failure) (P : β → Prop) : Prop where
  goes : admitted → ∃ result, answer = .ok result ∧ P result
  refused : ¬admitted → answer = .error refusal

namespace Sequence

/-- An edit that completes, as said, exactly where it is admitted;
everywhere else there is this one refusal. -/
structure Edits {β : Type} (answer : Except Failure β) (admitted : Prop)
    (refusal : Failure) (crowded : Prop) (P : β → Prop) : Prop where
  completes : admitted → Completes answer crowded P
  refused : ¬admitted → answer = .error refusal

/-- Where nothing is crowded, an edit goes through or is refused. -/
theorem Edits.admits {β : Type} {answer : Except Failure β}
    {admitted crowded : Prop} {refusal : Failure} {P : β → Prop}
    (h : Edits answer admitted refusal crowded P) (hroom : ¬crowded) :
    Admits answer admitted refusal P where
  goes hadmitted := (h.completes hadmitted).goes hroom
  refused := h.refused

variable {α : Type} {seq : Sequence α} {values : List α}

/-- Reads of a sequence of these elements give them, and its length is
their number. -/
theorem Sound.reads (h : Sound seq) (hitems : seq.items = values) :
    seq.contents = values ∧ seq.length = values.length := by
  rw [h.contents_eq, ← h.length_items, hitems]
  exact ⟨rfl, rfl⟩

/-- A promised sequence is read like the elements promised. -/
theorem Yields.reads {answer : Except Failure (Sequence α)}
    {crowded : Prop} (h : Yields answer crowded values) :
    Completes answer crowded fun seq =>
      seq.contents = values ∧ seq.length = values.length :=
  h.imp id fun _ hseq => hseq.1.reads hseq.2

/-- An edit that completes where it is admitted, and leaves so many
elements then. -/
theorem Yields.edits {answer : Except Failure (Sequence α)}
    {admitted crowded : Prop} {refusal : Failure} {length : Nat}
    (hgoes : admitted → Yields answer crowded values)
    (hlength : admitted → values.length = length)
    (hrefused : ¬admitted → answer = .error refusal) :
    Edits answer admitted refusal crowded fun edited =>
      edited.contents = values ∧ edited.length = length where
  completes hadmitted := by
    rw [← hlength hadmitted]
    exact (hgoes hadmitted).reads
  refused := hrefused

-- ================================================== edit by edit

section

variable (h : Sound seq) (index : Nat)
include h

/-- Every position below the length holds an element. -/
theorem get?_isSome_iff : (seq.get? index).isSome ↔ index < seq.length := by
  rw [h.get?_eq, isSome_getElem?, h.length_items]

/-- Insertion admits the end too. -/
theorem insert_edits (value : α) :
    Edits (seq.insert index value) (index ≤ seq.length)
      (.outOfBounds index seq.length) (crowd ≤ seq.length) fun edited =>
        edited.contents
            = seq.contents.take index ++ value :: seq.contents.drop index
          ∧ edited.length = seq.length + 1 := by
  rw [h.contents_eq]
  refine Yields.edits (insert_spec h value) (fun hindex => ?_)
    fun hindex => insert_refused value (Nat.lt_of_not_le hindex)
  rw [List.length_append, List.length_cons, List.length_take,
    List.length_drop, h.length_items]
  omega

/-- Replacing admits the positions of elements. -/
theorem set_admits (value : α) :
    Admits (seq.set index value) (index < seq.length)
      (.outOfBounds index seq.length) fun edited =>
        edited.contents = seq.contents.set index value
          ∧ edited.length = seq.length := by
  rw [h.contents_eq]
  refine Edits.admits (Yields.edits (set_spec h value) (fun _ => ?_)
    fun hindex => set_refused value (Nat.le_of_not_lt hindex)) id
  rw [List.length_set, h.length_items]

/-- Taking out admits the positions of elements. -/
theorem eraseAt_edits :
    Edits (seq.eraseAt index) (index < seq.length)
      (.outOfBounds index seq.length) (crowd ≤ seq.length) fun edited =>
        edited.contents = seq.contents.eraseIdx index
          ∧ edited.length = seq.length - 1 := by
  rw [h.contents_eq]
  refine Yields.edits (eraseAt_spec h) (fun hindex => ?_)
    fun hindex => eraseAt_refused (Nat.le_of_not_lt hindex)
  have hinside : index < seq.items.length := by rwa [h.length_items]
  rw [List.length_eraseIdx_of_lt hinside, h.length_items]

/-- A cut admits the places behind an element. -/
theorem splitAt_edits :
    Edits (seq.splitAt index) (1 ≤ index ∧ index ≤ seq.length)
      (.outOfBounds index seq.length) (crowd ≤ seq.length)
      fun (front, back) =>
        front.contents = seq.contents.take index ∧ front.length = index
          ∧ back.contents = seq.contents.drop index
          ∧ back.length = seq.length - index where
  completes := by
    rintro ⟨hpos, hindex⟩
    refine (splitAt_spec h hpos hindex).imp id ?_
    rintro ⟨left, right⟩ ⟨⟨hsoundl, hleft⟩, hsoundr, hright⟩
    obtain ⟨hcontentsl, hlengthl⟩ := hsoundl.reads hleft
    obtain ⟨hcontentsr, hlengthr⟩ := hsoundr.reads hright
    rw [List.length_take, h.length_items, Nat.min_eq_left hindex] at hlengthl
    rw [List.length_drop, h.length_items] at hlengthr
    rw [h.contents_eq]
    exact ⟨hcontentsl, hlengthl, hcontentsr, hlengthr⟩
  refused hindex := splitAt_refused (by omega)

end

-- ===================================================== what a caller sees

/-- Any two sequences that edits build can be put together, and reads of
the result answer the elements of the first and then those of the
second. Only a crowd can stop it. -/
theorem Reachable.append_contents {left right : Sequence α}
    (hl : Reachable left) (hr : Reachable right) :
    Completes (left.append right) (crowd < left.length + right.length)
      fun joined => joined.length = left.length + right.length
        ∧ joined.contents.length = joined.length
        ∧ joined.contents = left.contents ++ right.contents := by
  refine (append_spec hl.sound hr.sound).imp id fun joined hjoined => ?_
  obtain ⟨hread, hlength⟩ := hjoined.1.reads hjoined.2
  rw [List.length_append, hl.sound.length_items, hr.sound.length_items]
    at hlength
  refine ⟨hlength, ?_, ?_⟩
  · rw [hjoined.1.contents_eq, hjoined.1.length_items]
  · rw [hread, hl.sound.contents_eq, hr.sound.contents_eq]

/-- Two sequences long enough to be joined tree to tree. -/
theorem append_contents_ranges :
    ∃ left right joined,
      ofList (List.range 70) = .ok left
        ∧ ofList (List.range 40) = .ok right
        ∧ left.append right = .ok joined ∧ joined.length = 110
        ∧ joined.contents = List.range 70 ++ List.range 40 := by
  obtain ⟨left, hleft, hls, hli⟩ :=
    ofList_goes (by decide : (List.range 70).length ≤ crowd)
  obtain ⟨right, hright, hrs, hri⟩ :=
    ofList_goes (by decide : (List.range 40).length ≤ crowd)
  obtain ⟨hreadl, hlenl⟩ := hls.reads hli
  obtain ⟨hreadr, hlenr⟩ := hrs.reads hri
  have happend := Reachable.append_contents (.ofList hleft) (.ofList hright)
  rw [hreadl, hlenl, hreadr, hlenr] at happend
  obtain ⟨joined, hjoined, hlen, -, hcontents⟩ := happend.goes (by decide)
  exact ⟨left, right, joined, hleft, hright, hjoined, hlen, hcontents⟩

/-- A sequence at the brim cannot be joined with itself, although words
can count what that would be. -/
theorem append_overflows :
    ∃ start long seq : Sequence Nat,
      ofList (List.range 64) = .ok start ∧ start.doubled 54 = .ok long
        ∧ (List.range 64).foldlM push long = .ok seq ∧ Reachable seq
        ∧ seq.length + seq.length < wordSize
        ∧ seq.append seq = .error (.overflow "multiply") := by
  obtain ⟨start, long, seq, hstart, hlong, hseq, hreach, hbrim⟩ :=
    exists_brim (List.length_range : (List.range 64).length = 64)
  refine ⟨start, long, seq, hstart, hlong, hseq, hreach, ?_, ?_⟩
  · rw [hbrim.length_eq]
    decide
  · exact hbrim.append_eq (by rw [hbrim.length_eq]; decide)

/-- A sequence that edits build is cut at every place behind an element,
into the elements before it and those after it, and any of its elements
can be taken out. Every other position is refused with the position and
the length. Only a crowd can stop an edit that is not refused. -/
theorem Reachable.cuts_and_erasures (h : Reachable seq) (index : Nat) :
    seq.contents.length = seq.length
      ∧ Edits (seq.splitAt index) (1 ≤ index ∧ index ≤ seq.length)
          (.outOfBounds index seq.length) (crowd ≤ seq.length)
          (fun (front, back) =>
            front.contents = seq.contents.take index
              ∧ front.length = index
              ∧ back.contents = seq.contents.drop index
              ∧ back.length = seq.length - index)
      ∧ Edits (seq.eraseAt index) (index < seq.length)
          (.outOfBounds index seq.length) (crowd ≤ seq.length)
          (fun edited =>
            edited.contents = seq.contents.eraseIdx index
              ∧ edited.length = seq.length - 1) := by
  refine ⟨?_, splitAt_edits h.sound index, eraseAt_edits h.sound index⟩
  rw [h.sound.contents_eq, h.sound.length_items]

/-- The focus is one element at 3, in front of a tree of three leaves,
and the cut at 33 goes through the first of them. -/
theorem cuts_and_erasures_seventy :
    ∃ built seq : Sequence Nat, ofList (List.range 70) = .ok built
      ∧ built.insert 3 500 = .ok seq
      ∧ (∃ front back, seq.splitAt 33 = .ok (front, back)
          ∧ front.contents = [0, 1, 2, 500] ++ List.range' 3 29
          ∧ front.length = 33 ∧ back.length = 38
          ∧ back.contents = List.range' 32 38)
      ∧ (∃ erased, seq.eraseAt 3 = .ok erased
          ∧ erased.contents = List.range 70)
      ∧ seq.splitAt 0 = .error (.outOfBounds 0 71)
      ∧ seq.splitAt 72 = .error (.outOfBounds 72 71)
      ∧ seq.eraseAt 71 = .error (.outOfBounds 71 71) := by
  obtain ⟨built, hbuilt, hsound, hitems⟩ :=
    ofList_goes (by decide : (List.range 70).length ≤ crowd)
  obtain ⟨hread, hlen⟩ := hsound.reads hitems
  rw [List.length_range] at hlen
  have hroom : ¬ crowd ≤ built.length := by
    rw [hlen]
    decide
  obtain ⟨seq, hinsert, hcontents, hlength⟩ :=
    ((insert_edits hsound 3 500).admits hroom).goes (by omega)
  rw [hread] at hcontents
  rw [hlen] at hlength
  have hseq := Reachable.cuts_and_erasures (.insert (.ofList hbuilt) hinsert)
  rw [hcontents, hlength] at hseq
  obtain ⟨-, hcut, -⟩ := hseq 33
  obtain ⟨-, -, herase⟩ := hseq 3
  obtain ⟨-, hbefore, -⟩ := hseq 0
  obtain ⟨-, hbehind, -⟩ := hseq 72
  obtain ⟨-, -, hnone⟩ := hseq 71
  refine ⟨built, seq, hbuilt, hinsert, ?_, ?_, hbefore.refused (by omega),
    hbehind.refused (by omega), hnone.refused (by omega)⟩
  · obtain ⟨⟨front, back⟩, hsplit, hfront, hlenf, hback, hlenb⟩ :=
      (hcut.admits (by decide)).goes (by omega)
    exact ⟨front, back, hsplit, hfront, hlenf, hlenb, hback⟩
  · obtain ⟨erased, hedit, herased, -⟩ :=
      (herase.admits (by decide)).goes (by omega)
    exact ⟨erased, hedit, herased⟩

/-- A sequence at the brim can be cut at no place far from its focus, and
its first element cannot be taken out. -/
theorem cuts_and_erasures_overflow :
    ∃ start long seq : Sequence Nat,
      ofList (List.range 64) = .ok start ∧ start.doubled 54 = .ok long
        ∧ (List.range 64).foldlM push long = .ok seq ∧ Reachable seq
        ∧ 1 < seq.length
        ∧ seq.splitAt 1 = .error (.overflow "multiply")
        ∧ seq.eraseAt 0 = .error (.overflow "multiply") := by
  obtain ⟨start, long, seq, hstart, hlong, hseq, hreach, hbrim⟩ :=
    exists_brim (List.length_range : (List.range 64).length = 64)
  refine ⟨start, long, seq, hstart, hlong, hseq, hreach, ?_,
    hbrim.splitAt_eq Nat.one_pos (by decide), hbrim.eraseAt_eq⟩
  rw [hbrim.length_eq]
  decide

/-- A sequence that edits build has an element at every position below
its length and at no other, can be appended to, and admits insertions up
to its end and replacements below it. Every other position is refused
with the position and the length. Only a crowd can stop what adds an
element, and nothing a replacement. -/
theorem Reachable.reads_and_edits (h : Reachable seq) (index : Nat)
    (value : α) :
    seq.contents.length = seq.length
      ∧ ((seq.get? index).isSome ↔ index < seq.length)
      ∧ seq.get? index = seq.contents[index]?
      ∧ Completes (seq.push value) (crowd ≤ seq.length) (fun pushed =>
          pushed.contents = seq.contents ++ [value]
            ∧ pushed.length = seq.length + 1)
      ∧ Edits (seq.insert index value) (index ≤ seq.length)
          (.outOfBounds index seq.length) (crowd ≤ seq.length)
          (fun edited =>
            edited.contents = seq.contents.take index
                ++ value :: seq.contents.drop index
              ∧ edited.length = seq.length + 1)
      ∧ Admits (seq.set index value) (index < seq.length)
          (.outOfBounds index seq.length) (fun edited =>
            edited.contents = seq.contents.set index value
              ∧ edited.length = seq.length) := by
  have hsound := h.sound
  have hcontents := hsound.contents_eq
  refine ⟨?_, get?_isSome_iff hsound index, ?_, ?_,
    insert_edits hsound index value, set_admits hsound index value⟩
  · rw [hcontents, hsound.length_items]
  · rw [hcontents, hsound.get?_eq]
  · have hpush := (push_spec hsound value).reads
    rwa [List.length_append, List.length_singleton, hsound.length_items,
      ← hcontents] at hpush

/-- A sequence of two joined halves, whose tree has leaves that are not
full. -/
theorem reads_and_edits_joined :
    ∃ built left right seq : Sequence Nat,
      ofList (List.range 100) = .ok built
        ∧ built.splitAt 45 = .ok (left, right)
        ∧ right.append left = .ok seq
        ∧ seq.get? 54 = some 99 ∧ seq.get? 55 = some 0
        ∧ seq.get? 100 = none
        ∧ (∃ pushed, seq.push 500 = .ok pushed
            ∧ pushed.contents
              = List.range' 45 55 ++ List.range 45 ++ [500])
        ∧ (∃ edited, seq.insert 55 500 = .ok edited
            ∧ edited.contents
              = List.range' 45 55 ++ 500 :: List.range 45)
        ∧ (∃ edited, seq.set 99 500 = .ok edited
            ∧ edited.contents
              = List.range' 45 55 ++ List.range 44 ++ [500])
        ∧ seq.insert 101 500 = .error (.outOfBounds 101 100)
        ∧ seq.set 100 500 = .error (.outOfBounds 100 100) := by
  obtain ⟨built, hbuilt, hsound, hitems⟩ :=
    ofList_goes (by decide : (List.range 100).length ≤ crowd)
  obtain ⟨hread, hlen⟩ := hsound.reads hitems
  rw [List.length_range] at hlen
  have hcuts := splitAt_spec hsound (show 0 < 45 by omega) (by omega)
  rw [hlen] at hcuts
  obtain ⟨⟨left, right⟩, hsplit, ⟨hsoundl, hleft⟩, hsoundr, hright⟩ :=
    hcuts.goes (by decide)
  have hjoins := append_spec hsoundr hsoundl
  rw [hsoundr.length_of_items hright, hsoundl.length_of_items hleft,
    hright, hleft, hitems] at hjoins
  obtain ⟨seq, happend, hjoined, hseq⟩ := hjoins.goes (by decide)
  obtain ⟨hcontents, hlength⟩ := hjoined.reads hseq
  have hreach : Reachable seq :=
    .append (.right (.ofList hbuilt) hsplit) (.left (.ofList hbuilt) hsplit)
      happend
  have hedits := Reachable.reads_and_edits hreach
  rw [hcontents, hlength] at hedits
  obtain ⟨-, -, hlast, -⟩ := hedits 54 0
  obtain ⟨-, -, hfirst, hpush, hinsert, -⟩ := hedits 55 500
  obtain ⟨-, -, -, -, -, hset⟩ := hedits 99 500
  obtain ⟨-, -, hnone, -, -, hnoset⟩ := hedits 100 500
  obtain ⟨-, -, -, -, hnoinsert, -⟩ := hedits 101 500
  refine ⟨built, left, right, seq, hbuilt, hsplit, happend, hlast, hfirst,
    hnone, ?_, ?_, ?_, hnoinsert.refused (by decide),
    hnoset.refused (by decide)⟩
  · obtain ⟨pushed, hedit, hpushed, -⟩ := hpush.goes (by decide)
    exact ⟨pushed, hedit, hpushed⟩
  · obtain ⟨edited, hedit, hedited, -⟩ :=
      (hinsert.admits (by decide)).goes (by decide)
    exact ⟨edited, hedit, hedited⟩
  · obtain ⟨edited, hedit, hedited, -⟩ := hset.goes (by decide)
    exact ⟨edited, hedit, hedited⟩

/-- At the brim no element can be appended, and none put before the
first. -/
theorem reads_and_edits_overflow :
    ∃ start long seq : Sequence Nat,
      ofList (List.range 64) = .ok start ∧ start.doubled 54 = .ok long
        ∧ (List.range 64).foldlM push long = .ok seq ∧ Reachable seq
        ∧ seq.length + 1 < wordSize
        ∧ seq.push 0 = .error (.overflow "multiply")
        ∧ seq.insert 0 0 = .error (.overflow "multiply") := by
  obtain ⟨start, long, seq, hstart, hlong, hseq, hreach, hbrim⟩ :=
    exists_brim (List.length_range : (List.range 64).length = 64)
  refine ⟨start, long, seq, hstart, hlong, hseq, hreach, ?_,
    hbrim.push_eq 0, hbrim.insert_eq 0 (by rw [hbrim.length_eq]; decide)⟩
  rw [hbrim.length_eq]
  decide

end Sequence

end PersistentCollections
