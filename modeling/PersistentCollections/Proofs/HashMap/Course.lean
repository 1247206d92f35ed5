/-
The order of the entries of a map, however the map came about.

A course is a way to come by a map: edits, batches of edits on a draft,
and merges of two maps that were come by in their own ways. Each course
has a map and a ledger, and the map lists the entries of the ledger in
the order of the digits of their hashes (`course_spec`). So the walk
tells nothing of the course but the order among keys of one hash, which
is the order in which they last came to be present.
-/
import PersistentCollections.Proofs.HashMap.Draft
import PersistentCollections.Proofs.HashMap.Order
import PersistentCollections.Proofs.HashMap.Replay

namespace PersistentCollections.HashMap

variable {κ ν : Type}

/-- What a caller may ask of a draft that changes it. -/
inductive Draft.Edit (κ ν : Type) where
  /-- Store a value under a key. -/
  | insert (key : κ) (value : ν)
  /-- Store the values of some entries, in order. -/
  | insertAll (entries : List (κ × ν))
  /-- Take out a key. -/
  | erase (key : κ)
  /-- Fill the null slot. -/
  | insertNull (value : ν)
  /-- Empty the null slot. -/
  | eraseNull

/-- A way to come by a map. -/
inductive Course (κ ν : Type) where
  /-- The map without entries. -/
  | empty
  /-- An edit of a map. -/
  | edit (before : Course κ ν) (stamp : Stamp) (change : Edit κ ν)
  /-- A draft of a map that is edited and closed. -/
  | batch (before : Course κ ν) (edits : List (Stamp × Draft.Edit κ ν))
  /-- The entries of two maps. -/
  | merge (left : Course κ ν) (stamp : Stamp) (right : Course κ ν)

section

variable [BEq κ]

/-- The ledger after an edit of a draft. -/
def Ledger.draw (ledger : Ledger κ ν) : Draft.Edit κ ν → Ledger κ ν
  | .insert key value => ledger.put key value
  | .insertAll entries => ledger.putAll entries
  | .erase key => ledger.erase key
  | .insertNull value => ledger.putNull value
  | .eraseNull => ledger.eraseNull

/-- The ledger after edits of a draft, each with its stamp. -/
def Ledger.drawAll (ledger : Ledger κ ν)
    (edits : List (Stamp × Draft.Edit κ ν)) : Ledger κ ν :=
  edits.foldl (fun ledger (_, edit) => ledger.draw edit) ledger

variable [Hashable κ]

/-- The draft after an edit. -/
def Draft.edit (draft : Draft κ ν) (stamp : Stamp) :
    Draft.Edit κ ν → Except Failure (Draft κ ν)
  | .insert key value => (·.2) <$> draft.insert stamp key value
  | .insertAll entries => draft.insertAll stamp entries
  | .erase key => (·.2) <$> draft.erase stamp key
  | .insertNull value => (·.2) <$> draft.insertNull stamp value
  | .eraseNull => (·.2) <$> draft.eraseNull

/-- The map of a draft that is edited and closed. -/
def batch (map : HashMap κ ν) (edits : List (Stamp × Draft.Edit κ ν)) :
    Except Failure (HashMap κ ν) := do
  let draft ← edits.foldlM (fun draft (stamp, edit) =>
    draft.edit stamp edit) map.draft
  return (← draft.close).1

variable [BEq ν]

/-- The map that a course leads to. -/
def Course.map : Course κ ν → Except Failure (HashMap κ ν)
  | .empty => .ok HashMap.empty
  | .edit before stamp change => do (← before.map).edit stamp change
  | .batch before edits => do (← before.map).batch edits
  | .merge left stamp right => do (← left.map).merge stamp (← right.map)

/-- The ledger that a course leads to. The keys of a map that is merged
come in the order of its walk. -/
def Course.ledger : Course κ ν → Ledger κ ν
  | .empty => Ledger.empty
  | .edit before _ change => before.ledger.note change
  | .batch before edits => before.ledger.drawAll edits
  | .merge left _ right =>
    left.ledger.merge (inOrder right.ledger.keyed) right.ledger.null

end

variable [BEq κ] [Hashable κ] {map : HashMap κ ν} {ledger : Ledger κ ν}

/-- A map lists the entries of its ledger by the digits. -/
theorem Records.toList_inOrder (h : Records map ledger) :
    map.toList = inOrder ledger.keyed := by
  rw [h.toList_eq]
  apply h.sound.ascending.eq_of_alike (ascending_inOrder _)
  exact h.alike.trans (alike_inOrder _).symm

/-- A map records the ledger that can be read off it. -/
theorem Records.itself (h : Records map ledger) :
    Records map ⟨map.toList, map.getNull?⟩ where
  sound := h.sound
  branch := h.branch
  rooted := h.rooted
  alike := by
    rw [h.toList_eq]
    exact .refl _
  null := rfl
  size := by
    rw [h.size, Ledger.size, Ledger.size, h.toList_eq, h.null,
      h.alike.perm.length_eq]

/-- At every point a walk answers the next entry and counts the rest. -/
theorem Records.walk_counts (h : Records map ledger) (n : Nat) :
    (Steps.skip Walk.next n map.walk).remaining
        = (map.toList.drop n).length
      ∧ (Steps.skip Walk.next n map.walk).next.1 = map.toList[n]? := by
  have hholds := Steps.skip_holds Walk.next_follows Walk.next_done n
    h.walk_holds
  rw [h.toList_eq, ← List.head?_drop]
  exact ⟨hholds.remaining, Steps.answer_eq Walk.next_follows hholds⟩

variable [LawfulHashable κ]

/-- The keys that are present are those of the walk. -/
theorem Records.contains_iff (h : Records map ledger) (key : κ) :
    map.contains key = true ↔ ∃ x ∈ map.toList, (x.1 == key) = true := by
  rw [contains, h.stored?_eq, ← h.alike.lookup_eq, ← h.toList_eq, lookup,
    List.find?_isSome]

variable [EquivBEq κ] {other : HashMap κ ν} {otherLedger : Ledger κ ν}

/-- Where each hash has but one key, no two entries of a walk have the
same digits. -/
theorem Records.strictly_ascending (h : Records map ledger)
    (hone : ∀ x ∈ map.toList, ∀ y ∈ map.toList, hash x.1 = hash y.1 →
      (x.1 == y.1) = true) :
    map.toList.Pairwise fun x y => Before (hash x.1) (hash y.1) := by
  have hascending := h.sound.ascending
  have hdistinct := h.sound.distinct
  rw [← h.toList_eq] at hascending hdistinct
  apply (hascending.and hdistinct).imp_of_mem
  intro x y hx hy ⟨horder, hne⟩
  rcases horder with hhash | hbefore
  · rw [hone x hx y hy hhash] at hne
    cases hne
  · exact hbefore

/-- Where each hash has but one key, the keys alone determine their
order. -/
theorem Records.keys_agree (h : Records map ledger)
    (hother : Records other otherLedger)
    (hkeys : ∀ key, map.contains key = other.contains key)
    (hone : ∀ x ∈ map.keys, ∀ y ∈ map.keys, hash x = hash y →
      (x == y) = true) :
    (map.keys == other.keys) = true := by
  have hhas : ∀ x ∈ map.toList, ∃ y ∈ other.toList, (x.1 == y.1) = true := by
    intro x hx
    have hin := (h.contains_iff x.1).mpr ⟨x, hx, BEq.rfl⟩
    rw [hkeys, hother.contains_iff] at hin
    obtain ⟨y, hy, hyx⟩ := hin
    exact ⟨y, hy, BEq.symm hyx⟩
  have hhad : ∀ y ∈ other.toList, ∃ x ∈ map.toList, (x.1 == y.1) = true := by
    intro y hy
    have hin := (hother.contains_iff y.1).mpr ⟨y, hy, BEq.rfl⟩
    rwa [← hkeys, h.contains_iff] at hin
  have hkey : ∀ x ∈ map.toList, ∀ y ∈ map.toList,
      hash x.1 = hash y.1 → (x.1 == y.1) = true := fun x hx y hy =>
    hone x.1 (List.mem_map_of_mem hx) y.1 (List.mem_map_of_mem hy)
  have hkey' : ∀ x ∈ other.toList, ∀ y ∈ other.toList,
      hash x.1 = hash y.1 → (x.1 == y.1) = true := by
    intro x hx y hy hhash
    obtain ⟨z, hz, hzx⟩ := hhad x hx
    obtain ⟨w, hw, hwy⟩ := hhad y hy
    have hzw := hkey z hz w hw
      ((hash_eq hzx).trans (hhash.trans (hash_eq hwy).symm))
    exact BEq.trans (BEq.symm hzx) (BEq.trans hzw hwy)
  exact HashMap.keys_agree (h.strictly_ascending hkey)
    (hother.strictly_ascending hkey') hhas hhad

/-- An edit of a draft keeps its map in step with the ledger. -/
theorem draft_edit_spec (h : Records map ledger) (stamp : Stamp)
    (edit : Draft.Edit κ ν) :
    ∃ after : HashMap κ ν, map.draft.edit stamp edit = .ok after.draft
      ∧ Records after (ledger.draw edit) := by
  cases edit with
  | insert key value =>
      obtain ⟨after, hinsert, hafter⟩ := draft_insert_spec h stamp key value
      exact ⟨after, by rw [Draft.edit, hinsert]; rfl, hafter⟩
  | insertAll entries => exact draft_insertAll_spec h stamp entries
  | erase key =>
      obtain ⟨after, herase, hafter⟩ := draft_erase_spec h stamp key
      exact ⟨after, by rw [Draft.edit, herase]; rfl, hafter⟩
  | insertNull value =>
      obtain ⟨after, hinsert, hafter⟩ := draft_insertNull_spec h stamp value
      exact ⟨after, by rw [Draft.edit, hinsert]; rfl, hafter⟩
  | eraseNull =>
      obtain ⟨after, herase, hafter⟩ := draft_eraseNull_spec h
      exact ⟨after, by rw [Draft.edit, herase]; rfl, hafter⟩

/-- An open draft whose map records a ledger. -/
def Draft.Records (draft : Draft κ ν) (ledger : Ledger κ ν) : Prop :=
  ∃ map : HashMap κ ν, draft = map.draft ∧ HashMap.Records map ledger

/-- Edits of a draft, one after the other, keep it in step too. -/
theorem draft_edits_spec {draft : Draft κ ν} (h : draft.Records ledger)
    (edits : List (Stamp × Draft.Edit κ ν)) :
    ∃ after : Draft κ ν,
      edits.foldlM (fun draft (stamp, edit) => draft.edit stamp edit) draft
        = .ok after
      ∧ after.Records (ledger.drawAll edits) := by
  refine foldlM_lockstep ?_ edits h
  rintro _ ledger ⟨map, rfl, h⟩ ⟨stamp, edit⟩
  obtain ⟨after, hedit, hafter⟩ := draft_edit_spec h stamp edit
  exact ⟨after.draft, hedit, after, rfl, hafter⟩

theorem batch_spec (h : Records map ledger)
    (edits : List (Stamp × Draft.Edit κ ν)) :
    ∃ after, map.batch edits = .ok after
      ∧ Records after (ledger.drawAll edits) := by
  obtain ⟨_, hedits, after, rfl, hafter⟩ :=
    draft_edits_spec ⟨map, rfl, h⟩ edits
  refine ⟨after, ?_, hafter⟩
  unfold batch
  rw [hedits]
  rfl

variable [BEq ν]

/-- Every course leads to a map, which its ledger records. -/
theorem course_spec (course : Course κ ν) :
    ∃ map, course.map = .ok map ∧ Records map course.ledger := by
  induction course with
  | empty => exact ⟨_, rfl, records_empty⟩
  | edit before stamp edit ih =>
      obtain ⟨map, hmap, h⟩ := ih
      obtain ⟨after, hedit, hafter⟩ := edit_spec h stamp edit
      refine ⟨after, ?_, hafter⟩
      rw [Course.map, hmap]
      exact hedit
  | batch before edits ih =>
      obtain ⟨map, hmap, h⟩ := ih
      obtain ⟨after, hbatch, hafter⟩ := batch_spec h edits
      refine ⟨after, ?_, hafter⟩
      rw [Course.map, hmap]
      exact hbatch
  | merge left stamp right ihl ihr =>
      obtain ⟨map, hmap, hl⟩ := ihl
      obtain ⟨other, hother, hr⟩ := ihr
      obtain ⟨merged, hmerge, hmerged⟩ := merge_spec hl stamp hr
      rw [hr.toList_inOrder] at hmerged
      refine ⟨merged, ?_, hmerged⟩
      rw [Course.map, hmap, hother]
      exact hmerge

/-- A walk over the map of a course hands out each entry once, by the
digits of the hashes, and those of one hash in the order in which they
last came to be present; it counts what it has still to hand out; and
where each hash has but one key, the keys alone determine their order. -/
theorem course_walks_in_order (course : Course κ ν) :
    let ledger := course.ledger
    ∃ map, course.map = .ok map
      ∧ (∀ key, map.stored? key = lookup key ledger.keyed)
      ∧ map.toList.Perm ledger.keyed ∧ Distinct map.toList
      ∧ Ascending map.toList
      ∧ (∀ h, withHash h map.toList = withHash h ledger.keyed)
      ∧ (∀ n, (Steps.skip Walk.next n map.walk).remaining
            = (map.toList.drop n).length
          ∧ (Steps.skip Walk.next n map.walk).next.1 = map.toList[n]?)
      ∧ ∀ (course' : Course κ ν) (map' : HashMap κ ν),
          course'.map = .ok map' →
          (∀ key, map.contains key = map'.contains key) →
          (∀ x ∈ map.keys, ∀ y ∈ map.keys, hash x = hash y →
            (x == y) = true) →
          (map.keys == map'.keys) = true := by
  intro ledger
  obtain ⟨map, hmap, h⟩ := course_spec course
  have hlist := h.toList_eq
  have halike : Alike map.toList ledger.keyed := by
    rw [hlist]
    exact h.alike
  refine ⟨map, hmap, h.stored?_eq, halike.perm, ?_, ?_, halike, ?_, ?_⟩
  · rw [hlist]
    exact h.sound.distinct
  · rw [hlist]
    exact h.sound.ascending
  · exact h.walk_counts
  · intro course' map' hmap' hkeys hone
    obtain ⟨other, hother, h'⟩ := course_spec course'
    rw [hmap'] at hother
    cases hother
    exact h.keys_agree h' hkeys hone

/-- A batch and two edits that lead to the same keys. -/
theorem course_walks_in_order_twice :
    ∃ map other : HashMap Nat Nat,
      Course.map (.batch .empty [(0, .insert 33 0), (1, .insert 2 1),
          (2, .insert 1 2), (3, .erase 2)]) = .ok map
        ∧ Course.map (.edit (.edit .empty 4 (.insert 1 3)) 5
          (.insert 33 4)) = .ok other
        ∧ map.keys = other.keys
        ∧ ∀ n, (Steps.skip Walk.next n map.walk).remaining = 2 - n := by
  obtain ⟨other, hother, hstored', -⟩ :=
    course_walks_in_order (κ := Nat) (ν := Nat)
      (.edit (.edit .empty 4 (.insert 1 3)) 5 (.insert 33 4))
  obtain ⟨map, hmap, hstored, hperm, -, -, -, hcount, hsame⟩ :=
    course_walks_in_order (κ := Nat) (ν := Nat)
      (.batch .empty [(0, .insert 33 0), (1, .insert 2 1),
        (2, .insert 1 2), (3, .erase 2)])
  replace hperm : map.toList.Perm [(33, 0), (1, 2)] := hperm
  have hkeys : ∀ key, map.contains key = other.contains key := by
    intro key
    rw [contains, contains, hstored, hstored']
    show (lookup key [(33, 0), (1, 2)]).isSome
      = (lookup key [(1, 3), (33, 4)]).isSome
    simp only [lookup, List.find?_cons]
    cases (33 == key) <;> cases (1 == key) <;> rfl
  have hone : ∀ x ∈ map.keys, ∀ y ∈ map.keys, hash x = hash y →
      (x == y) = true := by
    have hmem : ∀ x ∈ map.keys, x = 33 ∨ x = 1 := fun x hx => by
      simpa using (hperm.map (·.1)).subset hx
    intro x hx y hy
    rcases hmem x hx with rfl | rfl <;> rcases hmem y hy with rfl | rfl
      <;> decide
  refine ⟨map, other, hmap, hother,
    eq_of_beq (hsame _ other hother hkeys hone), fun n => ?_⟩
  rw [(hcount n).1, List.length_drop, hperm.length_eq]
  rfl

end PersistentCollections.HashMap
