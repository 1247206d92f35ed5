/-
Which edits of a hash map hand back the map itself.

An edit that finds nothing to change hands back the map it was given.
Every other edit puts an instance of its own into the root or the null
slot, or empties one that was filled, and neither is what the map had
there. So a caller who asks whether the result is the map itself asks
whether there was anything to change.
-/
import PersistentCollections.Proofs.HashMap.AtHand

namespace PersistentCollections.HashMap

open Stamped (HandsBack)

variable {κ ν : Type} {map left right after : HashMap κ ν}
  {maps : List (HashMap κ ν)} {stamp : Stamp} {key : κ} {value : ν}
  {ledger : Ledger κ ν}

-- ============================================================ differences

theorem same_self (map : HashMap κ ν) : map.same map = true := by
  unfold same
  rw [Stamped.same_self, Stamped.same_self]
  rfl

theorem Lacks.not_same_root {node : Node κ ν} (h : map.Lacks stamp)
    (hroot : after.root = some ⟨stamp, node⟩) :
    after.same map = false := by
  unfold same
  rw [hroot, Stamped.not_same_of_lacks h.root]
  rfl

theorem Lacks.putNull_not_same (h : map.Lacks stamp) (value : ν) :
    (map.putNull ⟨stamp, value⟩).same map = false := by
  unfold same
  show (_ && Stamped.same (some ⟨stamp, value⟩) map.nullSlot) = false
  rw [Stamped.not_same_of_lacks h.nullSlot, Bool.and_false]

section

variable [BEq κ] [Hashable κ]

theorem Lacks.put_not_same (h : map.Lacks stamp) (key : κ) (value : ν) :
    Gives (map.put stamp key value) fun answer =>
      answer.2.same map = false := by
  intro answer hput
  obtain ⟨⟨_, hroot⟩, -⟩ := put_instance map stamp key value _ hput
  exact h.not_same_root hroot

theorem Lacks.take_not_same (h : map.Lacks stamp) (hroot : map.root ≠ none)
    (key : κ) :
    Gives (map.take stamp key) fun answer =>
      answer.2.same map = false := by
  intro answer htake
  obtain ⟨hnone | ⟨_, hmade⟩, -⟩ := take_instance map stamp key _ htake
  · unfold same
    rw [hnone, Bool.eq_false_iff.mpr (mt Stamped.none_same.mp hroot)]
    rfl
  · exact h.not_same_root hmade

/-- Some entries that are put, of whatever keys, make a trie. -/
theorem putAll_instance (map : HashMap κ ν) (stamp : Stamp) (x : κ × ν)
    (rest : List (κ × ν)) :
    Gives (map.putAll stamp (x :: rest)) fun after =>
      ∃ node, after.root = some ⟨stamp, node⟩ := by
  have hput : ∀ (y : κ × ν) (map : HashMap κ ν),
      Gives (do return (← map.put stamp y.1 y.2).2) fun after =>
        ∃ node, after.root = some ⟨stamp, node⟩ := by
    intro y map
    refine (put_instance map stamp y.1 y.2).bind ?_
    exact fun _ hafter => Gives.ok hafter.1
  unfold putAll
  rw [List.foldlM_cons]
  refine (hput x map).bind fun _ hmade => Gives.foldlM ?_ hmade
  exact fun y _ {state} _ => hput y state

/-- A map with entries is left as it is by a map that has no keys, and
no null slot but its own. -/
theorem Lacks.merge_same (hlacks : left.Lacks stamp)
    (hfilled : left.isEmpty = false) (right : HashMap κ ν) :
    Gives (left.merge stamp right) fun merged =>
      (merged.same left = true ↔ right.toList = []
        ∧ (right.nullSlot = none
          ∨ Stamped.same right.nullSlot left.nullSlot = true)) := by
  unfold merge
  rw [if_neg (Bool.eq_false_iff.mp hfilled)]
  cases right.toList with
  | nil =>
      cases right.nullSlot with
      | none => exact Gives.ok (iff_of_true (same_self left) ⟨rfl, .inl rfl⟩)
      | some slot =>
          refine Gives.ok ?_
          show (Stamped.same left.root left.root
            && Stamped.same (some slot) left.nullSlot) = true ↔ _
          rw [Stamped.same_self]
          simp
  | cons x rest =>
      refine (putAll_instance left stamp x rest).bind ?_
      rintro merged ⟨node, hmade⟩
      have hother : ∀ after : HashMap κ ν, after.root = merged.root →
          ¬ after.same left = true := fun after hroot =>
        Bool.eq_false_iff.mp (hlacks.not_same_root (hroot.trans hmade))
      cases right.nullSlot with
      | none => exact Gives.ok (iff_of_false (hother _ rfl) nofun)
      | some slot => exact Gives.ok (iff_of_false (hother _ rfl) nofun)

end

-- ========================================================= the null slot

theorem insertNull_hands_back [BEq ν] (hlacks : map.Lacks stamp)
    (value : ν) :
    HandsBack same Eq map (.ok (map.insertNull stamp value))
      (∃ stored, map.getNull? = some stored
        ∧ (stored == value) = true) := by
  have hother := hlacks.putNull_not_same value
  unfold insertNull
  cases map.getNull? with
  | none => exact .changed nofun hother
  | some stored =>
      show HandsBack same Eq map (.ok (if stored == value then map else _)) _
      by_cases hequal : (stored == value) = true
      · rw [if_pos hequal]
        exact .kept ⟨stored, rfl, hequal⟩ (same_self map) rfl
      · rw [if_neg hequal]
        refine .changed ?_ hother
        rintro ⟨_, ⟨⟩, hstored⟩
        exact hequal hstored

theorem eraseNull_hands_back (map : HashMap κ ν) :
    HandsBack same Eq map (.ok map.eraseNull) (map.getNull? = none) := by
  unfold eraseNull hasNull getNull?
  cases hslot : map.nullSlot with
  | none => exact .kept rfl (same_self map) rfl
  | some slot =>
      refine .changed nofun ?_
      show (_ && Stamped.same none map.nullSlot) = false
      rw [hslot]
      exact Bool.and_false _

-- ================================================================== keys

variable [BEq κ] [Hashable κ] [LawfulHashable κ]

theorem insert_hands_back [BEq ν] (h : Records map ledger)
    (hlacks : map.Lacks stamp) (key : κ) (value : ν) :
    HandsBack same Eq map (map.insert stamp key value)
      (∃ x, lookup key ledger.keyed = some x ∧ (x.2 == value) = true) := by
  obtain ⟨after, hput, -⟩ := put_spec h stamp key value
  have hother := hlacks.put_not_same key value _ hput
  unfold insert
  rw [h.find?_eq, hput]
  cases lookup key ledger.keyed with
  | none => exact .changed nofun hother
  | some x =>
      show HandsBack same Eq map (if x.2 == value then .ok map else .ok after)
        _
      by_cases hequal : (x.2 == value) = true
      · rw [if_pos hequal]
        exact .kept ⟨x, rfl, hequal⟩ (same_self map) rfl
      · rw [if_neg hequal]
        refine .changed ?_ hother
        rintro ⟨_, ⟨⟩, hstored⟩
        exact hequal hstored

variable [EquivBEq κ]

theorem erase_hands_back (h : Records map ledger)
    (hlacks : map.Lacks stamp) (key : κ) :
    HandsBack same Eq map (map.erase stamp key)
      (lookup key ledger.keyed = none) := by
  have hfind := h.find?_eq key
  unfold erase
  cases hfound : lookup key ledger.keyed with
  | none =>
      rw [hfind, hfound]
      exact .kept rfl (same_self map) rfl
  | some x =>
      have hroot : map.root ≠ none := by
        intro hnone
        rw [find?, hnone, hfound] at hfind
        cases hfind
      obtain ⟨after, htake, -⟩ := take_spec h stamp hfound
      rw [hfind, hfound, htake]
      exact .changed (Option.some_ne_none x)
        (hlacks.take_not_same hroot key _ htake)

/-- What an edit makes of a value is stored under the key that is
there. -/
theorem alter_hands_back [BEq ν] (h : Records map ledger)
    (hlacks : map.Lacks stamp) (key : κ)
    (change : Option ν → Option ν) :
    HandsBack same Eq map (map.alter stamp key change)
      (lookup key ledger.keyed = none ∧ change none = none
        ∨ ∃ x, lookup key ledger.keyed = some x
          ∧ ∃ value, change (some x.2) = some value
            ∧ (x.2 == value) = true) := by
  unfold alter
  rw [h.find?_eq]
  cases hfound : lookup key ledger.keyed with
  | none =>
      cases change none with
      | none => exact .kept (.inl ⟨rfl, rfl⟩) (same_self map) rfl
      | some value =>
          refine (insert_hands_back h hlacks key value).congr ?_
          rw [hfound]
          simp
  | some x =>
      dsimp only [Failure.ofShape, bind, Except.bind]
      cases hchange : change (some x.2) with
      | none =>
          refine (erase_hands_back h hlacks key).congr ?_
          rw [hfound]
          simp [hchange]
      | some value =>
          refine (insert_hands_back h hlacks x.1 value).congr ?_
          have hkept : lookup x.1 ledger.keyed = some x :=
            h.distinct.lookup_eq_some.mpr ⟨mem_of_lookup hfound, BEq.rfl⟩
          rw [hkept]
          simp [hchange]

-- =============================================================== mergers

variable [BEq ν]

theorem merge_hands_back (h : AtHand maps) (hleft : left ∈ maps)
    (hright : right ∈ maps) (hstamp : Unused stamp maps) :
    HandsBack same Eq left (left.merge stamp right)
      (right.toList = [] ∧ (right.nullSlot = none
        ∨ Stamped.same right.nullSlot left.nullSlot = true)) := by
  obtain ⟨l, hl⟩ := h.records left hleft
  obtain ⟨r, hr⟩ := h.records right hright
  obtain ⟨merged, hmerge, -⟩ := merge_spec hl stamp hr
  have hafter := h.make (.merge hleft hright hstamp hmerge)
  refine ⟨merged, hmerge, ?_, fun hsame => hafter.eq_of_same
    List.mem_cons_self (List.mem_cons_of_mem _ hleft) hsame⟩
  by_cases hempty : left.isEmpty = true
  · obtain rfl := hl.eq_empty hempty
    cases hmerge
    -- the right map is handed out, which is the left one if it is empty
    show (Stamped.same right.root none
        && Stamped.same right.nullSlot none) = true
      ↔ right.toList = [] ∧ (right.nullSlot = none
        ∨ Stamped.same right.nullSlot none = true)
    rw [Bool.and_eq_true, Stamped.same_none, Stamped.same_none,
      hr.root_eq_none, or_self]
  · exact (hstamp left hleft).merge_same (Bool.eq_false_iff.mpr hempty)
      right merged hmerge

-- ============================================================= instances

/-- When the edits of a map hand back the map itself, which is then left
as it is in every respect. -/
structure HandsBackItself (map : HashMap κ ν) (stamp : Stamp)
    (maps : List (HashMap κ ν)) : Prop where
  /-- An equal value is stored under the key. -/
  insert : ∀ key value, HandsBack same Eq map (map.insert stamp key value)
    (∃ x ∈ map.toList, (x.1 == key) = true ∧ (x.2 == value) = true)
  /-- The key is absent. -/
  erase : ∀ key, HandsBack same Eq map (map.erase stamp key)
    (∀ x ∈ map.toList, (x.1 == key) = false)
  /-- The null slot holds an equal value. -/
  insertNull : ∀ value,
    HandsBack same Eq map (.ok (map.insertNull stamp value))
      (∃ stored, map.getNull? = some stored ∧ (stored == value) = true)
  /-- The null slot is empty. -/
  eraseNull : HandsBack same Eq map (.ok map.eraseNull)
    (map.getNull? = none)
  /-- The key is absent and stays so, or what is stored under it is
  changed into an equal value. -/
  alter : ∀ key change, HandsBack same Eq map (map.alter stamp key change)
    ((∀ x ∈ map.toList, (x.1 == key) = false) ∧ change none = none
      ∨ ∃ x ∈ map.toList, (x.1 == key) = true
        ∧ ∃ value, change (some x.2) = some value
          ∧ (x.2 == value) = true)
  /-- The other map has no keys, and no null slot but the one that the
  two share. -/
  merge : ∀ other ∈ maps, HandsBack same Eq map (map.merge stamp other)
    (other.toList = [] ∧ (other.nullSlot = none
      ∨ Stamped.same other.nullSlot map.nullSlot = true))

theorem AtHand.hands_back (h : AtHand maps) (hmap : map ∈ maps)
    (hstamp : Unused stamp maps) : HandsBackItself map stamp maps := by
  obtain ⟨ledger, hledger⟩ := h.records map hmap
  have hitself := hledger.itself
  have hlacks := hstamp map hmap
  have hstored : ∀ key x, lookup key map.toList = some x
      ↔ x ∈ map.toList ∧ (x.1 == key) = true :=
    fun _ _ => hitself.distinct.lookup_eq_some
  constructor
  case insert =>
      intro key value
      refine (insert_hands_back hitself hlacks key value).congr ?_
      simp only [hstored, and_assoc]
  case erase =>
      intro key
      exact (erase_hands_back hitself hlacks key).congr lookup_eq_none
  case insertNull => exact fun value => insertNull_hands_back hlacks value
  case eraseNull => exact eraseNull_hands_back map
  case alter =>
      intro key change
      refine (alter_hands_back hitself hlacks key change).congr ?_
      simp only [hstored, lookup_eq_none, and_assoc]
  case merge =>
      exact fun other hother => merge_hands_back h hmap hother hstamp

end PersistentCollections.HashMap
