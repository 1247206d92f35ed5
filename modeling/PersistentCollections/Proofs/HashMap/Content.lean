/-
What the operations on a hash map make of its ledger.

A map records a ledger when its trie has the shape that edits keep, is
given up where it would be empty, and lists entries like those of the
ledger, and the rest of it goes with the ledger as it is. Each operation
is specified once, against the ledger: it has a result, it answers what
the ledger answers, and it leaves a map that records the edited ledger.
-/
import PersistentCollections.HashMap.Basic
import PersistentCollections.Proofs.HashMap.Insert
import PersistentCollections.Proofs.HashMap.Ledger
import PersistentCollections.Proofs.HashMap.Walk
import PersistentCollections.Proofs.Lockstep

namespace PersistentCollections.HashMap

variable {κ ν : Type} {map left right : HashMap κ ν}
  {ledger l r : Ledger κ ν} {key : κ} {value : ν}

/-- The trie of a map; the branch without slots if there is none. -/
def trie (map : HashMap κ ν) : Node κ ν :=
  (map.root.map (·.value)).getD Node.empty

@[simp] theorem listed_nothing : (Node.empty : Node κ ν).listed = [] := by
  unfold Node.empty
  rw [Node.listed, listedSlots_nil]

variable [BEq κ] [Hashable κ]

/-- A map that holds what a ledger says. -/
structure Records (map : HashMap κ ν) (ledger : Ledger κ ν) : Prop where
  sound : map.trie.Sound []
  branch : map.trie.IsBranch
  rooted : ∀ root, map.root = some root → root.value.isEmpty = false
  alike : Alike map.trie.listed ledger.keyed
  null : map.getNull? = ledger.null
  size : map.size = ledger.size

theorem sound_nothing : (Node.empty : Node κ ν).Sound [] := by
  refine .of_slots (Nat.zero_lt_succ _) Node.lays_empty ?_
  intro d slot hslot
  have hnone := List.eq_of_mem_replicate (List.mem_of_getElem? hslot)
  cases hnone

theorem root_left : ([] : List Nat).length + digitsPerHash
    = digitsPerHash := rfl

theorem records_empty : Records (empty : HashMap κ ν) Ledger.empty where
  sound := sound_nothing
  branch := ⟨_, Node.lays_empty⟩
  rooted := nofun
  alike := by
    show Alike Node.empty.listed []
    rw [listed_nothing]
    exact .refl _
  null := rfl
  size := rfl

-- =============================================================== reading

theorem Records.hasNull_eq (h : Records map ledger) :
    map.hasNull = ledger.null.isSome := by
  rw [← h.null]
  unfold hasNull getNull?
  rw [Option.isSome_map]

theorem Records.keyedSize_eq (h : Records map ledger) :
    map.keyedSize = map.trie.listed.length := by
  unfold keyedSize
  rw [h.size, h.hasNull_eq, h.alike.perm.length_eq, Ledger.size,
    Nat.add_sub_cancel]

theorem Records.walk_holds (h : Records map ledger) :
    Walk.Holds map.walk map.trie.listed := by
  have hstart : map.walk
      = Walk.start (map.root.map (·.value)) map.trie.listed.length := by
    rw [← h.keyedSize_eq]
    rfl
  rw [hstart]
  obtain ⟨root, size, nullSlot⟩ := map
  cases root with
  | some root => exact Walk.start_holds h.sound
  | none =>
      show Walk.Holds (Walk.start none Node.empty.listed.length)
        Node.empty.listed
      rw [listed_nothing]
      exact Walk.start_none_holds

/-- A walk hands out what the trie lists. -/
theorem Records.toList_eq (h : Records map ledger) :
    map.toList = map.trie.listed :=
  Steps.toList_eq Walk.next_follows h.walk_holds
    (Nat.le_of_eq h.keyedSize_eq.symm)

-- ========================================================= the null slot

theorem putNull_records (h : Records map ledger) (slot : Stamped ν) :
    Records (map.putNull slot) (ledger.putNull slot.value) where
  sound := h.sound
  branch := h.branch
  rooted := h.rooted
  alike := h.alike
  null := rfl
  size := by
    have hnull := h.hasNull_eq
    unfold hasNull at hnull
    show map.size + map.nullSlot.isNone.toNat = ledger.keyed.length + 1
    rw [h.size, Ledger.size, ← hnull]
    cases map.nullSlot <;> rfl

theorem eraseNull_records (h : Records map ledger) :
    Records map.eraseNull ledger.eraseNull := by
  have hnull := h.hasNull_eq
  unfold eraseNull
  split
  case isTrue hfilled =>
      refine ⟨h.sound, h.branch, h.rooted, h.alike, rfl, ?_⟩
      show map.size - 1 = ledger.keyed.length
      rw [h.size, Ledger.size, ← hnull, hfilled]
      rfl
  case isFalse hfree =>
      rw [hnull, Bool.not_eq_true, Option.isSome_eq_false_iff,
        Option.isNone_iff_eq_none] at hfree
      have hsame : ledger.eraseNull = ledger := by
        unfold Ledger.eraseNull
        rw [← hfree]
      rw [hsame]
      exact h

theorem insertNull_records [BEq ν] (h : Records map ledger)
    (stamp : Stamp) (value : ν) :
    Records (map.insertNull stamp value) (ledger.insertNull value) := by
  unfold insertNull Ledger.insertNull
  rw [h.null]
  split
  case isTrue => exact h
  case isFalse => exact putNull_records h ⟨stamp, value⟩

-- ============================================================= the trie

theorem put_eq {previous : Option ν} {changed : Node κ ν}
    (h : map.trie.insert? (hash key) key value digitsPerHash
      = some (previous, changed)) (stamp : Stamp) :
    map.put stamp key value = .ok (previous, { map with
      root := some ⟨stamp, changed⟩
      size := map.size + previous.isNone.toNat }) := by
  unfold trie at h
  simp only [put, h]
  rfl

theorem take_eq {x : κ × ν} {changed : Node κ ν}
    (h : map.trie.erase? (hash key) key digitsPerHash = some (x, changed))
    (stamp : Stamp) :
    map.take stamp key = .ok (x.2, { map with
      root := if changed.isEmpty then none else some ⟨stamp, changed⟩
      size := map.size - 1 }) := by
  unfold trie at h
  simp only [take, h]
  rfl

/-- A trie that is given up when it is empty. -/
theorem trie_of_changed {changed : Node κ ν} (hsound : changed.Sound [])
    (hbranch : changed.IsBranch) (stamp : Stamp) :
    let trie := ((if changed.isEmpty then none
      else some (⟨stamp, changed⟩ : Stamped (Node κ ν))).map
        (·.value)).getD Node.empty
    trie.Sound [] ∧ trie.IsBranch ∧ trie.listed = changed.listed := by
  split
  case isTrue hempty =>
      rw [isEmpty_eq hsound hbranch, List.isEmpty_iff] at hempty
      refine ⟨sound_nothing, ⟨_, Node.lays_empty⟩, ?_⟩
      rw [hempty]
      exact listed_nothing
  case isFalse => exact ⟨hsound, hbranch, rfl⟩

-- ============================================================= searching

variable [LawfulHashable κ]

theorem Records.find?_eq (h : Records map ledger) (key : κ) :
    map.find? key = some (lookup key ledger.keyed) := by
  rw [← h.alike.lookup_eq]
  obtain ⟨root, size, nullSlot⟩ := map
  cases root with
  | some root => exact find?_spec h.sound (leads_nil _) root_left
  | none =>
      show some none = some (lookup key Node.empty.listed)
      rw [listed_nothing]
      rfl

theorem Records.stored?_eq (h : Records map ledger) (key : κ) :
    map.stored? key = lookup key ledger.keyed := by
  unfold stored?
  rw [h.find?_eq]
  rfl

theorem Records.get?_eq (h : Records map ledger) (key : κ) :
    map.get? key = (lookup key ledger.keyed).map (·.2) := by
  rw [get?, h.stored?_eq]

-- =============================================================== editing

/-- Putting answers the value that was there. -/
theorem put_spec (h : Records map ledger) (stamp : Stamp) (key : κ)
    (value : ν) :
    ∃ after, map.put stamp key value
        = .ok ((lookup key ledger.keyed).map (·.2), after)
      ∧ Records after (ledger.put key value) := by
  obtain ⟨changed, hinsert, hsound, halike, hbranch⟩ :=
    h.sound.insert?_spec key value (.inl h.branch) (leads_nil _) root_left
  rw [h.alike.lookup_eq] at hinsert
  refine ⟨_, put_eq hinsert stamp, hsound, hbranch h.branch, ?_,
    halike.trans h.alike.store, h.null, ?_⟩
  · rintro root ⟨⟩
    have hne : changed.listed ≠ [] := fun hnil => store_ne_nil
      (List.nil_perm.mp (hnil ▸ halike.perm))
    rw [isEmpty_eq hsound (hbranch h.branch)]
    exact List.isEmpty_eq_false_iff.mpr hne
  · show map.size + _ = _
    rw [h.size, Option.isNone_map]
    show _ = (store key value ledger.keyed).length + ledger.null.isSome.toNat
    rw [length_store, Ledger.size]
    omega

theorem putAll_spec (h : Records map ledger) (stamp : Stamp)
    (entries : List (κ × ν)) :
    ∃ after, map.putAll stamp entries = .ok after
      ∧ Records after (ledger.putAll entries) := by
  refine foldlM_lockstep (fun h ⟨key, value⟩ => ?_) entries h
  obtain ⟨after, hput, hafter⟩ := put_spec h stamp key value
  refine ⟨after, ?_, hafter⟩
  simp only [hput]
  rfl

theorem ofList_spec (stamp : Stamp) (entries : List (κ × ν)) :
    ∃ map, ofList stamp entries = .ok map
      ∧ Records map (Ledger.empty.putAll entries) :=
  putAll_spec records_empty stamp entries

theorem insert_spec [BEq ν] (h : Records map ledger) (stamp : Stamp)
    (key : κ) (value : ν) :
    ∃ after, map.insert stamp key value = .ok after
      ∧ Records after (ledger.insert key value) := by
  obtain ⟨after, hput, hafter⟩ := put_spec h stamp key value
  simp only [insert, Ledger.insert, h.find?_eq key, hput,
    Failure.ofShape, bind, Except.bind]
  cases lookup key ledger.keyed with
  | none => exact ⟨after, rfl, hafter⟩
  | some x =>
      obtain ⟨storedKey, stored⟩ := x
      cases hsame : stored == value with
      | true =>
          simp only [hsame, if_true]
          exact ⟨map, rfl, h⟩
      | false =>
          simp only [hsame, Bool.false_eq_true, if_false]
          exact ⟨after, rfl, hafter⟩

variable [EquivBEq κ]

theorem Records.distinct (h : Records map ledger) :
    Distinct ledger.keyed :=
  (h.alike.perm.pairwise_iff fun hxy => by rwa [BEq.comm]).mp
    h.sound.distinct

/-- Taking answers the value that is there. -/
theorem take_spec (h : Records map ledger) (stamp : Stamp)
    {x : κ × ν} (hfound : lookup key ledger.keyed = some x) :
    ∃ after, map.take stamp key = .ok (x.2, after)
      ∧ Records after (ledger.erase key) := by
  have hlookup : lookup key map.trie.listed = some x := by
    rw [h.alike.lookup_eq, hfound]
  obtain ⟨changed, herase, hsound, hlisted, hbranch⟩ :=
    erase?_spec h.sound hlookup (leads_nil _) root_left
  obtain ⟨hsound', hbranch', hlisted'⟩ :=
    trie_of_changed hsound (hbranch h.branch) stamp
  refine ⟨_, take_eq herase stamp, hsound', hbranch', ?_, ?_, h.null, ?_⟩
  · intro root hroot
    cases hempty : changed.isEmpty with
    | true => simp [hempty] at hroot
    | false =>
        simp only [hempty, Bool.false_eq_true, if_false,
          Option.some.injEq] at hroot
        rw [← hroot]
        exact hempty
  · refine Alike.trans ?_ h.alike.without
    rw [← hlisted, ← hlisted']
    exact .refl _
  · have hless := length_without h.distinct hfound
    show map.size - 1 = _
    rw [h.size, Ledger.size, ← hless]
    show _ = (without key ledger.keyed).length + ledger.null.isSome.toNat
    omega

theorem erase_spec (h : Records map ledger) (stamp : Stamp) (key : κ) :
    ∃ after, map.erase stamp key = .ok after
      ∧ Records after (ledger.erase key) := by
  have hfind := h.find?_eq key
  cases hfound : lookup key ledger.keyed with
  | none =>
      rw [hfound] at hfind
      refine ⟨map, ?_, ?_⟩
      · unfold erase
        rw [hfind]
        rfl
      · rw [Ledger.erase, without_of_lookup hfound]
        exact h
  | some x =>
      rw [hfound] at hfind
      obtain ⟨after, htake, hafter⟩ := take_spec h stamp hfound
      refine ⟨after, ?_, hafter⟩
      unfold erase
      rw [hfind, htake]
      rfl

theorem alter_spec [BEq ν] (h : Records map ledger) (stamp : Stamp)
    (key : κ) (change : Option ν → Option ν) :
    ∃ after, map.alter stamp key change = .ok after
      ∧ Records after (ledger.alter key change) := by
  simp only [alter, Ledger.alter, h.find?_eq key, Failure.ofShape, bind,
    Except.bind]
  cases lookup key ledger.keyed with
  | none =>
      cases change none with
      | none => exact ⟨map, rfl, h⟩
      | some value => exact insert_spec h stamp key value
  | some x =>
      obtain ⟨storedKey, stored⟩ := x
      cases hchange : change (some stored) with
      | none =>
          simp only [hchange]
          exact erase_spec h stamp key
      | some value =>
          simp only [hchange]
          exact insert_spec h stamp storedKey value

-- ============================================================== whole maps

theorem merge_spec (hl : Records left l) (stamp : Stamp)
    (hr : Records right r) :
    ∃ merged, left.merge stamp right = .ok merged
      ∧ Records merged (l.merge right.toList r.null) := by
  obtain ⟨merged, hput, hmerged⟩ := putAll_spec hl stamp right.toList
  unfold merge
  split
  case isTrue hempty =>
      -- the right map is handed out as it is; its keys are distinct,
      -- so the empty ledger takes them over in their order
      have hsize : l.size = 0 := by
        rw [← hl.size]
        exact eq_of_beq hempty
      have hlist := hr.toList_eq
      have hdistinct : Distinct right.toList := by
        rw [hlist]
        exact hr.sound.distinct
      rw [Ledger.eq_empty_of_size hsize, Ledger.empty_merge hdistinct]
      refine ⟨right, rfl, hr.sound, hr.branch, hr.rooted, ?_, hr.null, ?_⟩
      · show Alike _ right.toList
        rw [hlist]
        exact .refl _
      · rw [hr.size, Ledger.size, Ledger.size, hlist,
          hr.alike.perm.length_eq]
  case isFalse =>
      have hnull := hr.null
      unfold getNull? at hnull
      rw [← hnull]
      simp only [hput, bind, Except.bind]
      cases right.nullSlot with
      | none =>
          rw [Option.map_none, Ledger.merge_none]
          exact ⟨merged, rfl, hmerged⟩
      | some slot => exact ⟨_, rfl, putNull_records hmerged slot⟩

end PersistentCollections.HashMap
