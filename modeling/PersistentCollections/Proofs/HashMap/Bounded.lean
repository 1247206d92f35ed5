/-
No map runs out of digits.

Edits and batches of edits keep every entry and every bucket of a map on
the path of its hash (`Placed`), and each of them goes through. It does
not matter which function makes the hashes, nor what equality the keys
have. So in the map of any course, and in any draft of it, no branch lies
below depth 12, a node at depth 13 is a bucket which only its own hash
leads to, no call reads a digit that a hash does not have, and a walk
never needs all the room it has (`WithinDigits`).
-/
import PersistentCollections.Proofs.HashMap.Course
import PersistentCollections.Proofs.HashMap.Depth

namespace PersistentCollections.HashMap

variable {κ ν : Type} {map left right : HashMap κ ν}

/-- A map whose entries and buckets stand on the paths of their
hashes. -/
def Placed (map : HashMap κ ν) : Prop := map.trie.Placed []

theorem placed_empty : Placed (empty : HashMap κ ν) := placed_nothing

theorem Placed.eraseNull (h : Placed map) : Placed map.eraseNull := by
  unfold HashMap.eraseNull
  by_cases hnull : map.hasNull = true
  · rw [if_pos hnull]
    exact h
  · rw [if_neg hnull]
    exact h

theorem Placed.insertNull [BEq ν] (h : Placed map) (stamp : Stamp)
    (value : ν) : Placed (map.insertNull stamp value) := by
  unfold HashMap.insertNull
  by_cases hequal : (map.getNull? == some value) = true
  · rw [if_pos hequal]
    exact h
  · rw [if_neg hequal]
    exact h

theorem slot?_empty (d : Nat) :
    (Node.empty : Node κ ν).slot? d = some none := by
  dsimp only [Node.empty, Node.slot?]
  rw [Taken.has_empty]
  rfl

/-- A trie that is given up when it is empty. -/
theorem placed_of_changed {changed : Node κ ν} (h : changed.Placed [])
    (stamp : Stamp) :
    (((if changed.isEmpty then none
      else some (⟨stamp, changed⟩ : Stamped (Node κ ν))).map
        (·.value)).getD Node.empty).Placed [] := by
  by_cases hempty : changed.isEmpty = true
  · rw [if_pos hempty]
    exact placed_nothing
  · rw [if_neg hempty]
    exact h

theorem Placed.walk_fits (h : Placed map) (steps : Nat) :
    Walk.Fits (Steps.skip Walk.next steps map.walk).path := by
  obtain ⟨root, size, nullSlot⟩ := map
  cases root with
  | some root => exact (Walk.start_fits h _).skip steps
  | none => exact Walk.fits_nil.skip steps

-- ================================================================== calls

section

variable [BEq κ] [Hashable κ]

/-- A map is searched by its trie, if it has one or not. -/
theorem find?_trie (map : HashMap κ ν) (key : κ) :
    map.find? key = map.trie.find? (hash key) key digitsPerHash := by
  obtain ⟨root, size, nullSlot⟩ := map
  cases root with
  | some root => rfl
  | none =>
      show some none = Node.empty.find? (hash key) key digitsPerHash
      rw [find?_branch Node.lays_empty, slot?_empty]
      rfl

/-- A search has an answer. -/
theorem Placed.find?_isSome (h : Placed map) (key : κ) :
    (map.find? key).isSome := by
  obtain ⟨found, hfind⟩ := find?_placed h key (leads_nil _) root_left
  rw [find?_trie, hfind]
  rfl

theorem Placed.found (h : Placed map) (key : κ) :
    Succeeds (Failure.ofShape (map.find? key)) fun found =>
      map.find? key = some found := by
  obtain ⟨found, hfind⟩ := Option.isSome_iff_exists.mp (h.find?_isSome key)
  rw [hfind]
  exact Succeeds.ok rfl

theorem Placed.put (h : Placed map) (stamp : Stamp) (key : κ) (value : ν) :
    Succeeds (map.put stamp key value) fun answer => Placed answer.2 := by
  obtain ⟨previous, changed, hinsert, hplaced⟩ :=
    insert?_placed h key value (leads_nil _) root_left
  exact ⟨_, put_eq hinsert stamp, hplaced⟩

theorem Placed.take (h : Placed map) (stamp : Stamp) {key : κ} {x : κ × ν}
    (hfound : map.find? key = some (some x)) :
    Succeeds (map.take stamp key) fun answer => Placed answer.2 := by
  rw [find?_trie] at hfound
  obtain ⟨taken, changed, herase, hplaced⟩ :=
    erase?_placed h hfound (leads_nil _) root_left
  exact ⟨_, take_eq herase stamp, placed_of_changed hplaced stamp⟩

theorem Placed.putAll (h : Placed map) (stamp : Stamp)
    (entries : List (κ × ν)) :
    Succeeds (map.putAll stamp entries) Placed := by
  refine Succeeds.foldlM (fun x {state} hstate => ?_) entries h
  exact (hstate.put stamp x.1 x.2).bind fun _ hafter => Succeeds.ok hafter

theorem Placed.erase (h : Placed map) (stamp : Stamp) (key : κ) :
    Succeeds (map.erase stamp key) Placed := by
  unfold HashMap.erase
  refine (h.found key).bind fun found hfound => ?_
  cases found with
  | none => exact Succeeds.ok h
  | some x =>
      refine (h.take stamp hfound).bind ?_
      exact fun _ hafter => Succeeds.ok hafter

theorem Placed.merge (hl : Placed left) (stamp : Stamp)
    (hr : Placed right) : Succeeds (left.merge stamp right) Placed := by
  unfold HashMap.merge
  by_cases hempty : left.isEmpty = true
  · rw [if_pos hempty]
    exact Succeeds.ok hr
  · rw [if_neg hempty]
    refine (hl.putAll stamp right.toList).bind fun merged hmerged => ?_
    cases right.nullSlot with
    | none => exact Succeeds.ok hmerged
    | some slot => exact Succeeds.ok hmerged

/-- A draft of a map with everything in its place. -/
def Draft.Placed (draft : Draft κ ν) : Prop :=
  ∃ map : HashMap κ ν, draft = map.draft ∧ HashMap.Placed map

theorem Placed.draft_edit (h : Placed map) (stamp : Stamp)
    (edit : Draft.Edit κ ν) :
    Succeeds (map.draft.edit stamp edit) Draft.Placed := by
  cases edit with
  | insert key value =>
      refine Succeeds.map ((h.put stamp key value).bind ?_)
      exact fun _ hafter => Succeeds.ok ⟨_, rfl, hafter⟩
  | insertAll entries =>
      refine (h.putAll stamp entries).bind ?_
      exact fun _ hafter => Succeeds.ok ⟨_, rfl, hafter⟩
  | erase key =>
      refine Succeeds.map ((h.found key).bind fun found hfound => ?_)
      cases found with
      | none => exact Succeeds.ok ⟨map, rfl, h⟩
      | some x =>
          refine (h.take stamp hfound).bind ?_
          exact fun _ hafter => Succeeds.ok ⟨_, rfl, hafter⟩
  | insertNull value => exact Succeeds.ok ⟨_, rfl, h⟩
  | eraseNull => exact Succeeds.ok ⟨_, rfl, h.eraseNull⟩

/-- Edits of a draft go through, and keep all in its place. -/
theorem Placed.draft_edits (h : Placed map)
    (edits : List (Stamp × Draft.Edit κ ν)) :
    Succeeds (edits.foldlM (fun draft (stamp, edit) =>
      draft.edit stamp edit) map.draft) Draft.Placed := by
  refine Succeeds.foldlM (fun step {draft} hdraft => ?_) edits ⟨map, rfl, h⟩
  obtain ⟨before, rfl, hbefore⟩ := hdraft
  exact hbefore.draft_edit step.1 step.2

theorem Placed.batch (h : Placed map)
    (edits : List (Stamp × Draft.Edit κ ν)) :
    Succeeds (map.batch edits) Placed := by
  refine (h.draft_edits edits).bind fun draft hdraft => ?_
  obtain ⟨after, rfl, hafter⟩ := hdraft
  exact Succeeds.ok hafter

variable [BEq ν]

theorem Placed.insert (h : Placed map) (stamp : Stamp) (key : κ)
    (value : ν) : Succeeds (map.insert stamp key value) Placed := by
  have hput : Succeeds (do return (← map.put stamp key value).2) Placed :=
    (h.put stamp key value).bind fun _ hafter => Succeeds.ok hafter
  unfold HashMap.insert
  refine (h.found key).bind fun found _ => ?_
  cases found with
  | none => exact hput
  | some x =>
      show Succeeds (if x.2 == value then _ else _) _
      by_cases hequal : (x.2 == value) = true
      · rw [if_pos hequal]
        exact Succeeds.ok h
      · rw [if_neg hequal]
        exact hput

theorem Placed.alter (h : Placed map) (stamp : Stamp) (key : κ)
    (change : Option ν → Option ν) :
    Succeeds (map.alter stamp key change) Placed := by
  unfold HashMap.alter
  refine (h.found key).bind fun found _ => ?_
  cases found with
  | none =>
      cases change none with
      | none => exact Succeeds.ok h
      | some value => exact h.insert stamp key value
  | some x =>
      dsimp only
      cases change (some x.2) with
      | none => exact h.erase stamp key
      | some value => exact h.insert stamp x.1 value

theorem Placed.edit (h : Placed map) (stamp : Stamp)
    (change : Edit κ ν) : Succeeds (map.edit stamp change) Placed := by
  cases change with
  | insert key value => exact h.insert stamp key value
  | erase key => exact h.erase stamp key
  | alter key change => exact h.alter stamp key change
  | insertNull value => exact Succeeds.ok (h.insertNull stamp value)
  | eraseNull => exact Succeeds.ok h.eraseNull
  | ofList entries => exact placed_empty.putAll stamp entries

/-- Every course goes through, and puts everything in its place. -/
theorem course_placed (course : Course κ ν) :
    Succeeds course.map Placed := by
  induction course with
  | empty => exact Succeeds.ok placed_empty
  | edit before stamp change ih =>
      exact ih.bind fun _ hbefore => hbefore.edit stamp change
  | batch before edits ih =>
      exact ih.bind fun _ hbefore => hbefore.batch edits
  | merge left stamp right ihl ihr =>
      refine ihl.bind fun _ hleft => ?_
      exact ihr.bind fun _ hright => hleft.merge stamp hright

end

-- ================================================================= bounds

section

variable [BEq κ] [Hashable κ] [BEq ν]

/-- A map that asks of no hash a digit that it does not have. -/
structure WithinDigits (map : HashMap κ ν) : Prop where
  /-- No branch lies below depth 12, -/
  branch : ∀ {path node}, map.trie.at? path = some node →
    node.readsDigit = true → path.length ≤ 12
  /-- no node lies below depth 13, -/
  node : ∀ {path node}, map.trie.at? path = some node → path.length ≤ 13
  /-- and one at this depth is a bucket, -/
  bucket : ∀ {path node}, map.trie.at? path = some node →
    path.length = 13 → ∃ stored entries, node = .bucket stored entries
  /-- to which only the digits of its own hash lead. -/
  ownHash : ∀ {h stored entries},
    map.trie.at? (digitsTo h 13) = some (.bucket stored entries) →
    stored = h
  /-- No call with a key of any hash reads a digit below the last one, -/
  reads : ∀ {h depth}, Reads h map.trie depth → depth ≤ 12
  /-- so a search has an answer, -/
  find : ∀ key, (map.find? key).isSome
  /-- and edits go through. -/
  put : ∀ stamp key value, ∃ answer, map.put stamp key value = .ok answer
  insert : ∀ stamp key value, ∃ after,
    map.insert stamp key value = .ok after
  erase : ∀ stamp key, ∃ after, map.erase stamp key = .ok after
  alter : ∀ stamp key change, ∃ after,
    map.alter stamp key change = .ok after
  /-- A walk never has more than 14 nodes on its way, -/
  way : ∀ steps, (Steps.skip Walk.next steps map.walk).path.length ≤ 14
  /-- and more room for them would make no difference. -/
  room : ∀ steps room, 14 ≤ room →
    (Steps.skip Walk.next steps map.walk).nextWithin room
      = (Steps.skip Walk.next steps map.walk).next

theorem Placed.within_digits (h : Placed map) : WithinDigits map := by
  have hbelow : ∀ {path node}, map.trie.at? path = some node →
      node.Placed path := fun hnode => h.at? hnode
  constructor
  case branch => exact fun hnode hreads => (hbelow hnode).room hreads
  case node => exact fun hnode => (hbelow hnode).length_le
  case bucket =>
      intro path node hnode hlen
      obtain ⟨stored, entries, rfl, -⟩ :=
        (hbelow hnode).bucket_of_length hlen
      exact ⟨stored, entries, rfl⟩
  case ownHash =>
      intro h stored entries hnode
      obtain ⟨_, _, heq, hpath⟩ :=
        (hbelow hnode).bucket_of_length (length_digitsTo h 13)
      cases heq
      rw [digits_eq_digitsTo] at hpath
      exact (eq_of_digitsTo (Nat.le_refl _) hpath).symm
  case reads => exact fun hreads => Node.Placed.reads_le h hreads
  case find => exact h.find?_isSome
  case put =>
      exact fun stamp key value => (h.put stamp key value).goes_through
  case insert =>
      exact fun stamp key value => (h.insert stamp key value).goes_through
  case erase => exact fun stamp key => (h.erase stamp key).goes_through
  case alter =>
      exact fun stamp key change => (h.alter stamp key change).goes_through
  case way => exact fun steps => (h.walk_fits steps).length
  case room => exact fun steps => (Walk.next_fits (h.walk_fits steps)).2

/-- Hashes that differ part at a digit they have; and however a map came
about, and whatever edits are made on a draft of it, no digits are asked
for but those that a hash has. -/
theorem stays_within_digits :
    (∀ (h h' : UInt64) (start : Nat), h ≠ h' →
      (∀ d < start, digitAt h d = digitAt h' d) → Parts κ ν h h' start)
    ∧ ∀ course : Course κ ν,
      ∃ map, course.map = .ok map ∧ WithinDigits map
        ∧ ∀ edits : List (Stamp × Draft.Edit κ ν),
          ∃ after : HashMap κ ν,
            edits.foldlM (fun draft (stamp, edit) => draft.edit stamp edit)
                map.draft = .ok after.draft
              ∧ WithinDigits after := by
  constructor
  · exact fun h h' start hne hagree => parts_of_agree hne hagree
  · intro course
    obtain ⟨map, hmap, hplaced⟩ := course_placed course
    refine ⟨map, hmap, hplaced.within_digits, fun edits => ?_⟩
    obtain ⟨_, hedits, after, rfl, hafter⟩ := hplaced.draft_edits edits
    exact ⟨after, hedits, hafter.within_digits⟩

end

/-- Three keys of hashes that agree on twelve digits, two of them on all
thirteen: the bucket of the two lies at depth 13, and the first step of
a walk has 14 nodes on its way. -/
theorem stays_within_digits_deepest :
    let first := 1152921504606846976
    let twin := 19599665578316398592
    let other := 2305843009213693952
    let course : Course Nat Nat := .edit (.edit (.edit .empty 0
      (.insert first 0)) 1 (.insert twin 1)) 2 (.insert other 2)
    Parts Nat Nat (hash first) (hash other) 1
      ∧ ∃ map, course.map = .ok map ∧ WithinDigits map
        ∧ map.trie.at? (digitsTo (hash other) 12 ++ [1])
          = some (.bucket (hash first) [(first, 0), (twin, 1)])
        ∧ map.find? twin = some (some (twin, 1))
        ∧ (Steps.skip Walk.next 1 map.walk).path.length = 14
        ∧ ∃ after : HashMap Nat Nat,
            map.draft.edit 3 (.erase first) = .ok after.draft
              ∧ WithinDigits after := by
  intro first twin other course
  obtain ⟨hparts, hcourses⟩ := @stays_within_digits Nat Nat _ _ _
  obtain ⟨map, hmap, hwithin, hdrafts⟩ := hcourses course
  obtain ⟨after, hedits, hafter⟩ := hdrafts [(3, .erase first)]
  refine ⟨hparts _ _ 1 (by decide) (by decide), map, hmap, hwithin, ?_⟩
  subst course first twin other
  cases hmap
  exact ⟨rfl, rfl, rfl, after, hedits, hafter⟩

end PersistentCollections.HashMap
