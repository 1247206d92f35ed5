/-
The tries of hash maps are well formed, field by field.

What the edits of a trie keep is stated elsewhere through the cells that
a branch stands for. Here it is said of the fields themselves: the marks
and slots of a packed branch, the count and cells of a spread one, the
hash and entries of a bucket, and the path to each of them. A map is
well formed when its trie is, starts with a branch, is there exactly if
there are entries with a key, and its size counts them and the null
slot. Every map that edits, batches and mergers lead to is, and so is
every map that is under edit in a draft.
-/
import PersistentCollections.Proofs.HashMap.Course

namespace PersistentCollections.HashMap

open Node (At uses inUse split_cells)

variable {κ ν : Type}

-- ================================================================= marks

namespace Taken

variable {taken : Taken} {d i : Nat}

/-- The taken digits in order. -/
def digits (taken : Taken) : List Nat :=
  (List.range digitCount).filter taken.has

/-- The rank of a taken digit is its place among them. -/
theorem rank_eq_of_digits (h : taken.digits[i]? = some d) :
    taken.has d = true ∧ taken.rank d = i := by
  have hplace : ∀ n, ((List.range n).filter taken.has)[i]? = some d →
      taken.has d = true ∧ taken.rank d = i := by
    intro n
    induction n with
    | zero => exact nofun
    | succ n ih =>
        intro hd
        rw [List.range_succ, List.filter_append] at hd
        by_cases hi : i < ((List.range n).filter taken.has).length
        · rw [List.getElem?_append_left hi] at hd
          exact ih hd
        · rw [List.getElem?_append_right (Nat.le_of_not_lt hi)] at hd
          have hmem := List.mem_of_getElem? hd
          rw [List.mem_filter, List.mem_singleton] at hmem
          obtain ⟨rfl, hhas⟩ := hmem
          have hlt := (List.getElem?_eq_some_iff.mp hd).1
          have hone := List.length_filter_le taken.has [d]
          rw [List.length_singleton] at hone
          refine ⟨hhas, ?_⟩
          unfold rank
          rw [List.countP_eq_length_filter]
          omega
  exact hplace digitCount h

/-- The rank of the first digit past the last one counts the marks. -/
theorem cpop_eq_rank (taken : Taken) :
    taken.cpop.toNat = taken.rank digitCount := by
  have hcount : ∀ n, taken.cpopNatRec n 0 = taken.rank n := by
    intro n
    induction n with
    | zero => rfl
    | succ n ih =>
        rw [BitVec.cpopNatRec_succ, BitVec.cpopNatRec_add, ih]
        unfold rank
        rw [List.range_succ, List.countP_append, List.countP_singleton]
        unfold has
        cases taken.getLsbD n <;> rfl
  rw [BitVec.toNat_cpop, hcount]

end Taken

-- ================================================================= nodes

section

variable [BEq κ] [Hashable κ]

mutual

/-- A node in good shape at the end of a path. -/
inductive Node.WellFormed : List Nat → Node κ ν → Prop
  /-- Fewer than 16 slots, one for each mark. -/
  | packed {path : List Nat} {taken : Taken} {slots : List (Slot κ ν)}
      (marked : slots.length = taken.cpop.toNat)
      (few : slots.length < 16)
      (slot : ∀ d slot, (d, slot) ∈ taken.digits.zip slots →
        Slot.WellFormed (path ++ [d]) slot) :
      Node.WellFormed path (.packed taken slots)
  /-- A cell for each digit; more than 8 are in use, and counted. -/
  | spread {path : List Nat} {count : Nat}
      {cells : List (Option (Slot κ ν))}
      (wide : cells.length = 32)
      (counted : count = cells.countP Option.isSome) (many : 8 < count)
      (slot : ∀ d slot, cells[d]? = some (some slot) →
        Slot.WellFormed (path ++ [d]) slot) :
      Node.WellFormed path (.spread count cells)
  /-- Two entries or more of different keys, all with the hash that the
  path leads to. -/
  | bucket {path : List Nat} {h : UInt64} {entries : List (κ × ν)}
      (many : 2 ≤ entries.length) (distinct : Distinct entries)
      (hashes : ∀ x ∈ entries, hash x.1 = h) (leads : Leads path h) :
      Node.WellFormed path (.bucket h entries)

/-- What a branch holds in good shape at the end of a path. -/
inductive Slot.WellFormed : List Nat → Slot κ ν → Prop
  /-- An entry under the hash of its key, which the path leads to. -/
  | entry {path : List Nat} {h : UInt64} {key : κ} {value : ν}
      (hashed : h = hash key) (leads : Leads path h) :
      Slot.WellFormed path (.entry h key value)
  /-- A node of two entries or more. -/
  | node {path : List Nat} {child : Node κ ν}
      (sound : Node.WellFormed path child) (many : 2 ≤ child.listed.length) :
      Slot.WellFormed path (.node child)

end

/-- A map in good shape. -/
structure WellFormed (map : HashMap κ ν) : Prop where
  /-- The root of the trie is a branch. -/
  root : ∀ root, map.root = some root → Node.WellFormed [] root.value
    ∧ ∀ h entries, root.value ≠ .bucket h entries
  /-- There is no trie where there are no entries with a key. -/
  absent : map.root = none ↔ map.trie.listed = []
  /-- No two entries have one key. -/
  distinct : Distinct map.trie.listed
  /-- The entries with a key are counted, and the null slot. -/
  counted : map.size = map.trie.listed.length + map.hasNull.toNat

end

section

variable [BEq κ] [Hashable κ] {path : List Nat} {node : Node κ ν}
  {cells : List (Option (Slot κ ν))}

/-- The fields of a branch are those of the cells it stands for. -/
theorem Node.Lays.wellFormed (lays : node.Lays cells)
    (slots : ∀ d slot, At cells d slot →
      Slot.WellFormed (path ++ [d]) slot) :
    Node.WellFormed path node := by
  cases lays with
  | spread wide hmany =>
      exact .spread wide List.length_filterMap_eq_countP hmany slots
  | packed hlen htaken hfew =>
      refine .packed ?_ hfew fun d slot hd => ?_
      · rw [Taken.cpop_eq_rank, Node.rank_take htaken _ (by omega),
          List.take_of_length_le (by omega)]
      · obtain ⟨i, hi⟩ := List.mem_iff_getElem?.mp hd
        obtain ⟨hdigit, hslot⟩ := List.getElem?_zip_eq_some.mp hi
        obtain ⟨hhas, hrank⟩ := Taken.rank_eq_of_digits hdigit
        rw [htaken] at hhas
        unfold uses at hhas
        obtain ⟨other, hother⟩ := Option.isSome_iff_exists.mp hhas
        have hcell := Option.join_eq_some_iff.mp hother
        obtain ⟨before, after, rfl, rfl⟩ := split_cells hcell
        rw [← hrank, Node.rank_eq htaken] at hslot
        obtain rfl : other = slot := by simpa using hslot
        exact slots _ other hcell

theorem Node.Sound.wellFormed (h : node.Sound path)
    (hnode : node.IsBranch ∨ 2 ≤ node.listed.length) :
    Node.WellFormed path node := by
  induction h with
  | bucket leads hashes distinct =>
      rcases hnode with ⟨_, hlays⟩ | hmany
      · cases hlays
      · rw [listed_bucket] at hmany
        exact .bucket hmany distinct hashes leads
  | branch room lays entries children many ih =>
      refine lays.wellFormed fun d slot hslot => ?_
      cases slot with
      | entry h key value =>
          obtain ⟨hhash, hleads⟩ := entries d h key value hslot
          exact .entry hhash hleads
      | node child =>
          have hmany := many d child hslot
          exact .node (ih d child hslot (.inr hmany)) hmany

variable [EquivBEq κ] [LawfulHashable κ] {map : HashMap κ ν}
  {ledger : Ledger κ ν}

/-- A map that records a ledger is well formed. -/
theorem Records.wellFormed (h : Records map ledger) : map.WellFormed where
  root := by
    intro root hroot
    have htrie : map.trie = root.value := by rw [trie, hroot]; rfl
    rw [← htrie]
    refine ⟨h.sound.wellFormed (.inl h.branch), fun hash entries heq => ?_⟩
    obtain ⟨_, hlays⟩ := h.branch
    rw [heq] at hlays
    cases hlays
  absent := by
    have hempty := isEmpty_eq h.sound h.branch
    cases hroot : map.root with
    | none =>
        have htrie : map.trie = Node.empty := by rw [trie, hroot]; rfl
        rw [htrie, listed_nothing]
        exact iff_of_true rfl rfl
    | some root =>
        have htrie : map.trie = root.value := by rw [trie, hroot]; rfl
        rw [htrie, h.rooted root hroot] at hempty
        rw [htrie]
        exact iff_of_false (Option.some_ne_none root)
          (List.isEmpty_eq_false_iff.mp hempty.symm)
  distinct := h.sound.distinct
  counted := by
    rw [h.size, h.hasNull_eq, Ledger.size, h.alike.perm.length_eq]

variable [BEq ν]

/-- Every course leads to a well-formed map, and a draft of it holds a
well-formed map after any edits. The draft without entries is that of
the empty map. -/
theorem course_well_formed (course : Course κ ν) :
    ∃ map, course.map = .ok map ∧ map.WellFormed
      ∧ ∀ edits : List (Stamp × Draft.Edit κ ν),
        ∃ after : HashMap κ ν,
          edits.foldlM (fun draft (stamp, edit) => draft.edit stamp edit)
            map.draft = .ok after.draft
          ∧ after.WellFormed := by
  obtain ⟨map, hmap, h⟩ := course_spec course
  refine ⟨map, hmap, h.wellFormed, fun edits => ?_⟩
  obtain ⟨_, hedits, after, rfl, hafter⟩ :=
    draft_edits_spec ⟨map, rfl, h⟩ edits
  exact ⟨after, hedits, hafter.wellFormed⟩

/-- Two keys of one hash and a third that has their first digit; one of
the three is taken out in a batch and another one in a draft. -/
theorem course_well_formed_colliding :
    ∃ map after : HashMap Nat Nat,
      Course.map (.batch .empty [(0, .insert 1 10), (1, .insert 33 20),
          (2, .insert 18446744073709551617 30), (3, .erase 33)]) = .ok map
        ∧ map.WellFormed
        ∧ map.draft.edit 4 (.erase 1) = .ok after.draft
        ∧ after.WellFormed := by
  obtain ⟨map, hmap, hmapGood, hdraft⟩ :=
    course_well_formed (κ := Nat) (ν := Nat)
      (.batch .empty [(0, .insert 1 10), (1, .insert 33 20),
        (2, .insert 18446744073709551617 30), (3, .erase 33)])
  obtain ⟨after, hafter, hafterGood⟩ := hdraft [(4, .erase 1)]
  refine ⟨map, after, hmap, hmapGood, ?_, hafterGood⟩
  simpa only [List.foldlM_cons, List.foldlM_nil, bind_pure] using hafter

end

end PersistentCollections.HashMap
