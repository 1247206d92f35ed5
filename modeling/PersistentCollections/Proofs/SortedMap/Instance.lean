/-
Which edits and slices of a sorted map hand back the map itself.

A map that an edit makes has entries and the stamp of the edit (`Made`),
and a merger that has made a map once keeps making maps of its own. A
slice is the whole map, the map without entries, or one that is built
anew because it has fewer entries (`Slice`); whichever of its shortcuts
a slice takes, it is the map itself exactly if it leaves nothing out.
-/
import PersistentCollections.Proofs.SortedMap.Reachable
import PersistentCollections.Proofs.Stamped

namespace PersistentCollections.SortedMap

open Stamped (HandsBack Lacks)

variable {κ ν : Type} {cmp : κ → κ → Ordering}
  {map left right after : SortedMap κ ν cmp} {stamp : Stamp} {key : κ}
  {value : ν}

-- ============================================================= instances

/-- Maps that tell a caller the same. -/
structure Alike (left right : SortedMap κ ν cmp) : Prop where
  toList : left.toList = right.toList
  size : left.size = right.size

theorem alike_self (map : SortedMap κ ν cmp) : Alike map map := ⟨rfl, rfl⟩

theorem same_self (map : SortedMap κ ν cmp) : map.same map = true :=
  Stamped.same_self map.root

theorem root_eq_none : map.root = none ↔ map.entries = [] := by
  unfold root entries
  cases map.tree with
  | leaf => exact iff_of_true rfl rfl
  | node => exact iff_of_false nofun (by simp)

/-- Maps without entries are one instance. -/
theorem same_of_nil (hl : left.entries = []) (hr : right.entries = []) :
    left.same right = true := by
  unfold same
  rw [root_eq_none.mpr hl, root_eq_none.mpr hr]
  rfl

theorem root_of_filled (h : map.entries ≠ []) :
    map.root = some ⟨map.stamp, map.tree⟩ := by
  have hroot := mt root_eq_none.mp h
  unfold root at hroot ⊢
  by_cases hleaf : map.tree.isLeaf = true
  · exact (hroot (if_pos hleaf)).elim
  · exact if_neg hleaf

/-- A map without entries, or with a new stamp, is another instance than
one with entries. -/
theorem not_same_of_filled (hlacks : Lacks map.root stamp)
    (hfilled : map.entries ≠ [])
    (hafter : after.entries = [] ∨ after.stamp = stamp) :
    after.same map = false := by
  unfold same
  by_cases hnil : after.entries = []
  · rw [root_eq_none.mpr hnil]
    exact Bool.eq_false_iff.mpr
      (mt Stamped.none_same.mp (mt root_eq_none.mp hfilled))
  · rw [root_of_filled hnil, hafter.resolve_left hnil]
    exact Stamped.not_same_of_lacks hlacks _

-- ================================================================ slices

/-- What a slice of a map may be. -/
inductive Slice (map : SortedMap κ ν cmp) (stamp : Stamp) :
    SortedMap κ ν cmp → Prop where
  /-- The map itself. -/
  | whole : Slice map stamp map
  /-- The map without entries. -/
  | nothing : Slice map stamp empty
  /-- A map that is built anew from fewer entries. -/
  | anew {entries : List (κ × ν)} (hfew : entries.length ≠ map.size) :
      Slice map stamp (ofSorted stamp entries)

theorem restrict_slice (map : SortedMap κ ν cmp) (stamp : Stamp)
    (lower upper : Bound κ) :
    Slice map stamp (map.restrict stamp lower upper) := by
  unfold restrict
  by_cases hall : (map.between lower upper).length = map.size
  · exact (if_pos hall).symm ▸ .whole
  · exact (if_neg hall).symm ▸ .anew hall

theorem segment_slice (map : SortedMap κ ν cmp) (stamp : Stamp)
    (first stop : κ) : Slice map stamp (map.segment stamp first stop) := by
  unfold segment
  split
  · exact .nothing
  · split
    · split
      · exact .whole
      · split
        · exact .nothing
        · exact restrict_slice map stamp _ _
    · exact .whole

theorem dropBefore_slice (map : SortedMap κ ν cmp) (stamp : Stamp)
    (first : κ) : Slice map stamp (map.dropBefore stamp first) := by
  unfold dropBefore
  split
  · split
    · exact .whole
    · split
      · exact .nothing
      · exact restrict_slice map stamp _ _
  · exact .whole

theorem takeBefore_slice (map : SortedMap κ ν cmp) (stamp : Stamp)
    (stop : κ) : Slice map stamp (map.takeBefore stamp stop) := by
  unfold takeBefore
  split
  · split
    · exact .whole
    · split
      · exact .nothing
      · exact restrict_slice map stamp _ _
  · exact .whole

/-- A slice is the map itself if it leaves nothing out. -/
theorem Slice.hands_back (hslice : Slice map stamp after) (h : Sound map)
    (hlacks : Lacks map.root stamp) {lower upper : Bound κ}
    (hentries : after.entries = within cmp lower upper map.entries) :
    HandsBack same Alike map (.ok after)
      (∀ x ∈ map.toList,
        (lower.admitsFrom cmp x.1 && upper.admitsUpTo cmp x.1) = true) := by
  unfold within at hentries
  rw [toList_eq h]
  cases hslice with
  | whole =>
      exact .kept (List.filter_eq_self.mp hentries.symm) (same_self map)
        (alike_self map)
  | nothing =>
      by_cases hnil : map.entries = []
      · refine .kept ?_ (same_of_nil rfl hnil) ⟨?_, ?_⟩
        · rw [hnil]
          exact nofun
        · rw [toList_eq sound_empty, toList_eq h, hnil]
          rfl
        · rw [h.size_eq, hnil]
          rfl
      · refine .changed ?_ (not_same_of_filled hlacks hnil (.inl rfl))
        intro hall
        rw [List.filter_eq_self.mpr hall] at hentries
        exact hnil hentries.symm
  | @anew entries hfew =>
      have hpartly : map.entries.filter (fun x =>
          lower.admitsFrom cmp x.1 && upper.admitsUpTo cmp x.1)
            ≠ map.entries := by
        intro hall
        rw [hall] at hentries
        apply hfew
        rw [h.size_eq, ← hentries]
        exact congrArg _ (Tree.entries_ofSorted entries).symm
      have hfilled : map.entries ≠ [] := by
        intro hnil
        rw [hnil] at hpartly
        exact hpartly rfl
      exact .changed (mt List.filter_eq_self.mpr hpartly)
        (not_same_of_filled hlacks hfilled (.inr rfl))

-- =============================================================== storing

/-- A map that an edit with this stamp has stored into. -/
structure Made (stamp : Stamp) (map : SortedMap κ ν cmp) : Prop where
  sound : Sound map
  filled : map.entries ≠ []
  stamped : map.stamp = stamp

theorem Made.not_same (h : Made stamp after)
    (hlacks : Lacks map.root stamp) : after.same map = false := by
  unfold same
  rw [root_of_filled h.filled, h.stamped]
  exact Stamped.not_same_of_lacks hlacks _

/-- Whether an equal value is stored under a key. -/
def Stores [BEq ν] (cmp : κ → κ → Ordering) (entries : List (κ × ν))
    (key : κ) (value : ν) : Prop :=
  ∃ x ∈ entries, cmp key x.1 = .eq ∧ (x.2 == value) = true

variable [Std.TransCmp cmp]

theorem made_put (h : Sound map) (stamp : Stamp) (key : κ) (value : ν) :
    Made stamp (map.put stamp key value) := by
  obtain ⟨hsound, hentries⟩ := put_spec h stamp key value
  refine ⟨hsound, ?_, rfl⟩
  rw [hentries]
  exact store_ne_nil

section

variable [BEq ν]

theorem insert_of_stores (h : Sound map)
    (hstores : Stores cmp map.entries key value) :
    map.insert stamp key value = map := by
  obtain ⟨x, hx, hkey, hequal⟩ := hstores
  unfold insert
  rw [stored?_eq h, h.ordered.find?_eq_some.mpr ⟨hx, hkey⟩]
  exact if_pos hequal

theorem insert_of_not_stores (h : Sound map)
    (hstores : ¬ Stores cmp map.entries key value) :
    map.insert stamp key value = map.put stamp key value := by
  unfold insert
  rw [stored?_eq h]
  cases hfound : map.entries.find? (hasKey cmp key) with
  | none => rfl
  | some x =>
      obtain ⟨hx, hkey⟩ := h.ordered.find?_eq_some.mp hfound
      exact if_neg fun hequal => hstores ⟨x, hx, hkey, hequal⟩

theorem insert_hands_back (h : Sound map) (hlacks : Lacks map.root stamp)
    (key : κ) (value : ν) :
    HandsBack same Alike map (.ok (map.insert stamp key value))
      (Stores cmp map.entries key value) := by
  by_cases hstores : Stores cmp map.entries key value
  · rw [insert_of_stores h hstores]
    exact .kept hstores (same_self map) (alike_self map)
  · rw [insert_of_not_stores h hstores]
    exact .changed hstores ((made_put h stamp key value).not_same hlacks)

theorem Made.insert (h : Made stamp map) (key : κ) (value : ν) :
    Made stamp (map.insert stamp key value) := by
  by_cases hstores : Stores cmp map.entries key value
  · rw [insert_of_stores h.sound hstores]
    exact h
  · rw [insert_of_not_stores h.sound hstores]
    exact made_put h.sound stamp key value

theorem Made.insertAll (values : List (κ × ν)) :
    ∀ {map : SortedMap κ ν cmp}, Made stamp map →
      Made stamp
        (values.foldl (fun map x => map.insert stamp x.1 x.2) map) := by
  induction values with
  | nil => exact fun h => h
  | cons x values ih => exact fun h => ih (h.insert x.1 x.2)

/-- The first value that is new makes a map, and from then on all maps
are of that edit. -/
theorem insertAll_hands_back (h : Sound map)
    (hlacks : Lacks map.root stamp) (values : List (κ × ν)) :
    HandsBack same Alike map
      (.ok (values.foldl (fun map x => map.insert stamp x.1 x.2) map))
      (∀ y ∈ values, Stores cmp map.entries y.1 y.2) := by
  induction values with
  | nil => exact .kept nofun (same_self map) (alike_self map)
  | cons y values ih =>
      rw [List.foldl_cons]
      by_cases hstores : Stores cmp map.entries y.1 y.2
      · rw [insert_of_stores h hstores]
        refine ih.congr ?_
        rw [List.forall_mem_cons]
        exact (and_iff_right hstores).symm
      · rw [insert_of_not_stores h hstores]
        have hmade := made_put h stamp y.1 y.2
        exact .changed (fun hall => hstores (hall y List.mem_cons_self))
          ((Made.insertAll values hmade).not_same hlacks)

end

-- =============================================================== erasing

theorem erase_hands_back (h : Sound map) (hlacks : Lacks map.root stamp)
    (key : κ) :
    HandsBack same Alike map (map.erase stamp key)
      (∀ x ∈ map.entries, cmp key x.1 ≠ .eq) := by
  unfold erase contains
  rw [stored?_eq h]
  cases hfound : map.entries.find? (hasKey cmp key) with
  | none =>
      refine .kept ?_ (same_self map) (alike_self map)
      simpa [hasKey] using hfound
  | some x =>
      obtain ⟨hx, hkey⟩ := h.ordered.find?_eq_some.mp hfound
      obtain ⟨_, hbalanced⟩ := h.balanced
      obtain ⟨rest, _, hrest, -⟩ :=
        (Tree.erase?_spec cmp key hbalanced).blackened
      rw [hrest]
      exact .changed (fun habsent => habsent x hx hkey)
        (not_same_of_filled hlacks (List.ne_nil_of_mem hx) (.inr rfl))

-- =============================================================== cutting

theorem segment_hands_back (h : Sound map) (hlacks : Lacks map.root stamp)
    (first stop : κ) :
    HandsBack same Alike map (.ok (map.segment stamp first stop))
      (∀ x ∈ map.toList, cmp x.1 first ≠ .lt ∧ cmp x.1 stop = .lt) := by
  have hslice := segment_slice map stamp first stop
  refine (hslice.hands_back h hlacks
    (segment_spec h stamp first stop).2).congr ?_
  simp only [Bound.admitsFrom, Bound.admitsUpTo, Bool.and_eq_true,
    bne_iff_ne, beq_iff_eq]

-- ========================================================= all of them

/-- When the edits and slices of a map hand back the map itself, which
then tells the same as before. -/
structure HandsBackItself [BEq ν] (map : SortedMap κ ν cmp)
    (stamp : Stamp) : Prop where
  /-- An equal value is stored under the key. -/
  insert : ∀ key value,
    HandsBack same Alike map (.ok (map.insert stamp key value))
      (∃ x ∈ map.toList, cmp key x.1 = .eq ∧ (x.2 == value) = true)
  /-- The key is absent. -/
  erase : ∀ key, HandsBack same Alike map (map.erase stamp key)
    (∀ x ∈ map.toList, cmp key x.1 ≠ .eq)
  /-- Every value of the other map is equal to one under its key. -/
  merge : ∀ other,
    HandsBack same Alike map (.ok (map.merge stamp other))
      (∀ y ∈ other.toList, ∃ x ∈ map.toList,
        cmp y.1 x.1 = .eq ∧ (x.2 == y.2) = true)
  /-- No key is before the first one or from the last one on. -/
  segment : ∀ first stop,
    HandsBack same Alike map (.ok (map.segment stamp first stop))
      (∀ x ∈ map.toList, cmp x.1 first ≠ .lt ∧ cmp x.1 stop = .lt)
  /-- Where the first one is not before the last one, there is no key. -/
  inverted : ∀ first stop, cmp first stop ≠ .lt →
    HandsBack same Alike map (.ok (map.segment stamp first stop))
      (map.toList = [])
  /-- No key is before the first one. -/
  dropBefore : ∀ first,
    HandsBack same Alike map (.ok (map.dropBefore stamp first))
      (∀ x ∈ map.toList, cmp x.1 first ≠ .lt)
  /-- No key is from the last one on. -/
  takeBefore : ∀ stop,
    HandsBack same Alike map (.ok (map.takeBefore stamp stop))
      (∀ x ∈ map.toList, cmp x.1 stop = .lt)

theorem Reachable.hands_back [BEq ν] (h : Reachable map)
    (hlacks : Lacks map.root stamp) : HandsBackItself map stamp := by
  have hsound := h.sound
  have hlist := toList_eq hsound
  constructor
  case insert =>
      intro key value
      rw [hlist]
      exact insert_hands_back hsound hlacks key value
  case erase =>
      intro key
      rw [hlist]
      exact erase_hands_back hsound hlacks key
  case merge =>
      intro other
      rw [hlist]
      exact insertAll_hands_back hsound hlacks other.toList
  case segment =>
      exact fun first stop => segment_hands_back hsound hlacks first stop
  case inverted =>
      intro first stop hinverted
      have hsegment := segment_hands_back hsound hlacks first stop
      refine hsegment.congr ⟨fun hall => ?_, fun hnil => ?_⟩
      · apply List.eq_nil_iff_forall_not_mem.mpr
        intro x hx
        obtain ⟨hfrom, hupTo⟩ := hall x hx
        exact hinverted (lt_around hfrom hupTo)
      · rw [hnil]
        exact nofun
  case dropBefore =>
      intro first
      have hslice := dropBefore_slice map stamp first
      refine (hslice.hands_back hsound hlacks
        (dropBefore_spec hsound stamp first).2).congr ?_
      simp only [Bound.admitsFrom, Bound.admitsUpTo, Bool.and_true,
        bne_iff_ne]
  case takeBefore =>
      intro stop
      have hslice := takeBefore_slice map stamp stop
      refine (hslice.hands_back hsound hlacks
        (takeBefore_spec hsound stamp stop).2).congr ?_
      simp only [Bound.admitsFrom, Bound.admitsUpTo, Bool.true_and,
        beq_iff_eq]

end PersistentCollections.SortedMap
