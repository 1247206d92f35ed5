/-
Slices of sorted collections list what lies between their bounds.

A slice first compares its bounds with the outermost keys, and hands out
the whole collection or nothing where these decide; otherwise it asks
for the entries inside the bounds and builds a collection of them. A
caller is told the same either way (`Shortcuts`): the rows whose keys
lie inside, as they are stored and in order, and their number
(`Sliced`). The two sides of a key make up the whole collection.
-/
import PersistentCollections.Proofs.SortedSet

namespace PersistentCollections

variable {κ ν ρ σ : Type} {cmp : κ → κ → Ordering}

-- =============================================================== slices

/-- A collection that tells of these rows: it lists them and counts
them. -/
structure Tells (rows : σ → List ρ) (size : σ → Nat) (told : σ)
    (listed : List ρ) : Prop where
  rows : rows told = listed
  size : size told = listed.length

/-- What the slices of a collection with these rows tell of: those
between two keys, those from a key on, and those before a key. -/
structure Sliced (cmp : κ → κ → Ordering) (key : ρ → κ)
    (rows : σ → List ρ) (size : σ → Nat) (all : List ρ)
    (between : κ → κ → σ) (tail head : κ → σ) : Prop where
  /-- A key is between when it does not come before the one, and comes
  before the other. -/
  segment : ∀ first stop, Tells rows size (between first stop)
    (all.filter fun row =>
      (cmp first (key row)).isLE && (cmp (key row) stop).isLT)
  /-- Nothing is between keys that are the same or inverted. -/
  inverted : ∀ first stop, cmp first stop ≠ .lt →
    Tells rows size (between first stop) []
  dropBefore : ∀ first, Tells rows size (tail first)
    (all.filter fun row => (cmp first (key row)).isLE)
  takeBefore : ∀ stop, Tells rows size (head stop)
    (all.filter fun row => (cmp (key row) stop).isLT)
  /-- The rows on the two sides of a key are all rows. -/
  sides : ∀ middle, rows (head middle) ++ rows (tail middle) = all

-- ================================================================= maps

namespace SortedMap

variable {map slice : SortedMap κ ν cmp} {stamp : Stamp}
  {lower upper : Bound κ}

/-- Slices that test the outermost keys first tell the same as those
that ask the entries one by one. -/
structure Shortcuts (map : SortedMap κ ν cmp) (stamp : Stamp) : Prop where
  segment : ∀ first stop, Alike (map.segment stamp first stop)
    (map.restrict stamp (.included first) (.excluded stop))
  dropBefore : ∀ first, Alike (map.dropBefore stamp first)
    (map.restrict stamp (.included first) .unbounded)
  takeBefore : ∀ stop, Alike (map.takeBefore stamp stop)
    (map.restrict stamp .unbounded (.excluded stop))

/-- A map tells of its entries, whatever is known of these. -/
theorem Sound.tells {entries : List (κ × ν)}
    (h : Sound slice ∧ slice.entries = entries) :
    Tells toList size slice entries where
  rows := (toList_eq h.1).trans h.2
  size := by rw [h.1.size_eq, h.2]

section

variable {entries : List (κ × ν)}

theorem within_upTo (stop : κ) (entries : List (κ × ν)) :
    within cmp .unbounded (.excluded stop) entries
      = entries.filter fun x => (cmp x.1 stop).isLT := by
  apply List.filter_congr
  intro x _
  show (true && cmp x.1 stop == .lt) = (cmp x.1 stop).isLT
  cases cmp x.1 stop <;> rfl

variable [Std.OrientedCmp cmp]

theorem admitsFrom_included (first key : κ) :
    (Bound.included first).admitsFrom cmp key = (cmp first key).isLE := by
  have hswap : cmp key first = (cmp first key).swap :=
    Std.OrientedCmp.eq_swap
  rw [Bound.admitsFrom, hswap]
  cases cmp first key <;> rfl

theorem within_from (first : κ) (entries : List (κ × ν)) :
    within cmp (.included first) .unbounded entries
      = entries.filter fun x => (cmp first x.1).isLE := by
  apply List.filter_congr
  intro x _
  rw [admitsFrom_included]
  exact Bool.and_true _

theorem within_segment (first stop : κ) (entries : List (κ × ν)) :
    within cmp (.included first) (.excluded stop) entries
      = entries.filter fun x =>
          (cmp first x.1).isLE && (cmp x.1 stop).isLT := by
  apply List.filter_congr
  intro x _
  rw [admitsFrom_included]
  show ((cmp first x.1).isLE && cmp x.1 stop == .lt) = _
  cases cmp x.1 stop <;> rfl

end

variable [Std.TransCmp cmp]

/-- The map that is built of the entries inside tells the same as any
other slice with these. -/
theorem Sound.alike_restrict (h : Sound map) (stamp : Stamp)
    (hslice : Sound slice
      ∧ slice.entries = within cmp lower upper map.entries) :
    Alike slice (map.restrict stamp lower upper) := by
  have htold := Sound.tells hslice
  have hbuilt := Sound.tells (restrict_spec h stamp lower upper)
  exact ⟨htold.rows.trans hbuilt.rows.symm,
    htold.size.trans hbuilt.size.symm⟩

theorem Sound.shortcuts (h : Sound map) (stamp : Stamp) :
    Shortcuts map stamp where
  segment first stop :=
    h.alike_restrict stamp (segment_spec h stamp first stop)
  dropBefore first := h.alike_restrict stamp (dropBefore_spec h stamp first)
  takeBefore stop := h.alike_restrict stamp (takeBefore_spec h stamp stop)

/-- Entries in order are those before a key, and then those from the key
on. -/
theorem Ordered.sides {entries : List (κ × ν)} (h : Ordered cmp entries)
    (middle : κ) :
    (entries.filter fun x => (cmp x.1 middle).isLT)
      ++ (entries.filter fun x => (cmp middle x.1).isLE) = entries := by
  have hbehind : ∀ x : κ × ν,
      (!(cmp x.1 middle).isLT) = (cmp middle x.1).isLE := by
    intro x
    have hswap : cmp middle x.1 = (cmp x.1 middle).swap :=
      Std.OrientedCmp.eq_swap
    rw [hswap]
    cases cmp x.1 middle <;> rfl
  have hsplit := h.split (p := fun x => (cmp x.1 middle).isLT) (by
    intro x y hxy hy
    rw [Ordering.isLT_iff_eq_lt] at hy ⊢
    exact Std.TransCmp.lt_trans hxy hy)
  simp only [hbehind] at hsplit
  exact hsplit.symm

theorem Sound.sliced (h : Sound map) (stamp : Stamp) :
    Sliced cmp Prod.fst toList size map.toList (map.segment stamp)
      (map.dropBefore stamp) (map.takeBefore stamp) := by
  have htail := fun first => Sound.tells (dropBefore_spec h stamp first)
  have hhead := fun stop => Sound.tells (takeBefore_spec h stamp stop)
  simp only [within_from] at htail
  simp only [within_upTo] at hhead
  rw [toList_eq h]
  constructor
  case segment =>
      intro first stop
      rw [← within_segment]
      exact Sound.tells (segment_spec h stamp first stop)
  case inverted =>
      intro first stop hinverted
      unfold SortedMap.segment
      rw [if_pos (bne_iff_ne.mpr hinverted)]
      exact ⟨rfl, rfl⟩
  case dropBefore => exact htail
  case takeBefore => exact hhead
  case sides =>
      intro middle
      rw [(hhead middle).rows, (htail middle).rows]
      exact h.ordered.sides middle

end SortedMap

-- ================================================================= sets

namespace SortedSet

variable {set : SortedSet κ cmp} {stamp : Stamp}

/-- A set tells of the keys of its map. -/
theorem tells_of_map {entries : List (κ × Unit)}
    (h : Tells SortedMap.toList SortedMap.size set.map entries) :
    Tells toList size set (entries.map (·.1)) where
  rows := by rw [toList_eq, h.rows]
  size := h.size.trans (List.length_map _).symm

/-- The keys of the entries with such a key are such keys. -/
theorem keys_filter (p : κ → Bool) (entries : List (κ × Unit)) :
    (entries.filter fun x => p x.1).map (·.1)
      = (entries.map (·.1)).filter p :=
  List.filter_map.symm

/-- The slices of a set are those of its map. -/
theorem sliced_of_map
    (h : Sliced cmp Prod.fst SortedMap.toList SortedMap.size
      set.map.toList (set.map.segment stamp) (set.map.dropBefore stamp)
      (set.map.takeBefore stamp)) :
    Sliced cmp id toList size set.toList (set.segment stamp)
      (set.dropBefore stamp) (set.takeBefore stamp) := by
  rw [toList_eq]
  constructor
  case segment =>
      intro first stop
      rw [← keys_filter]
      exact tells_of_map (h.segment first stop)
  case inverted =>
      exact fun first stop hinverted =>
        tells_of_map (h.inverted first stop hinverted)
  case dropBefore =>
      intro first
      rw [← keys_filter]
      exact tells_of_map (h.dropBefore first)
  case takeBefore =>
      intro stop
      rw [← keys_filter]
      exact tells_of_map (h.takeBefore stop)
  case sides =>
      intro middle
      rw [toList_eq, toList_eq, ← List.map_append]
      exact congrArg _ (h.sides middle)

end SortedSet

-- =========================================================== collections

/-- Every slice of a sorted map or of a sorted set lists the rows whose
keys lie inside its bounds, as they are stored and in order, and counts
them; it is ordered by the comparison of the collection, as its type
says. A slice of a map that takes a shortcut tells the same as the one
that asks the entries one by one and builds a map of those inside. -/
theorem slices_tell_inside [Std.TransCmp cmp] [BEq ν] :
    (∀ {map : SortedMap κ ν cmp} (stamp : Stamp),
      SortedMap.Reachable map →
      Sliced cmp Prod.fst SortedMap.toList SortedMap.size map.toList
          (map.segment stamp) (map.dropBefore stamp) (map.takeBefore stamp)
        ∧ map.Shortcuts stamp)
    ∧ ∀ {set : SortedSet κ cmp} (stamp : Stamp),
      SortedMap.Reachable set.map →
      Sliced cmp id SortedSet.toList SortedSet.size set.toList
        (set.segment stamp) (set.dropBefore stamp) (set.takeBefore stamp) := by
  constructor
  · intro map stamp h
    exact ⟨h.sound.sliced stamp, h.sound.shortcuts stamp⟩
  · intro set stamp h
    exact SortedSet.sliced_of_map (h.sound.sliced stamp)

/-- An order of the last digit alone. No bound is a stored key, and 42,
24 and 25 are the same as stored ones. -/
theorem slices_tell_inside_mod :
    ∃ (map : SortedMap Nat Nat (compareOn (· % 10)))
        (set : SortedSet Nat (compareOn (· % 10))),
      map = .ofList 0 [(14, 0), (2, 1), (31, 2), (5, 3), (8, 4)]
        ∧ set = .ofList 0 [14, 2, 31, 5, 8]
        ∧ (map.segment 1 42 25).toList = [(2, 1), (14, 0)]
        ∧ (map.segment 1 42 25).size = 2
        ∧ (map.segment 1 25 42).toList = []
        ∧ (map.dropBefore 1 24).toList = [(14, 0), (5, 3), (8, 4)]
        ∧ (map.takeBefore 1 24).toList = [(31, 2), (2, 1)]
        ∧ (map.takeBefore 1 24).toList ++ (map.dropBefore 1 24).toList
          = map.toList
        ∧ (map.segment 1 41 19).toList
          = (map.restrict 1 (.included 41) (.excluded 19)).toList
        ∧ (set.segment 1 42 25).toList = [2, 14]
        ∧ (set.takeBefore 1 24).size = 2 := by
  obtain ⟨hmaps, hsets⟩ :=
    @slices_tell_inside Nat Nat (compareOn (· % 10)) _ _
  obtain ⟨hmap, hshort⟩ := @hmaps
    (.ofList 0 [(14, 0), (2, 1), (31, 2), (5, 3), (8, 4)]) 1 (.ofList 0 _)
  have hset := @hsets (.ofList 0 [14, 2, 31, 5, 8]) 1 (.ofList 0 _)
  have hbetween := hmap.segment 42 25
  refine ⟨_, _, rfl, rfl, hbetween.rows.trans ?_, hbetween.size.trans ?_,
    (hmap.inverted 25 42 ?_).rows, (hmap.dropBefore 24).rows.trans ?_,
    (hmap.takeBefore 24).rows.trans ?_, hmap.sides 24,
    (hshort.segment 41 19).toList, (hset.segment 42 25).rows.trans ?_,
    (hset.takeBefore 24).size.trans ?_⟩
  all_goals decide

end PersistentCollections
