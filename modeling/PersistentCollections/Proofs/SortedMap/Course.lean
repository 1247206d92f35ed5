/-
To its callers a sorted map is a list in strict order.

A course is a way to come by a map: the map without entries or with
one, an edit or a slice of a map that was come by before, and the merger
of two such maps. Each course has a map and a list of rows, which is
edited along with it: a key that the comparison finds among the rows
keeps the instance that stands there, another one goes to its place, and
a slice keeps the rows inside its bounds. The map answers what the rows
answer (`course_spec`), whatever the order identifies.
-/
import PersistentCollections.Proofs.SortedMap.Content

namespace PersistentCollections

namespace SortedMap

variable {κ ν : Type}

/-- A way to come by a map. -/
inductive Course (κ ν : Type) where
  /-- The map without entries. -/
  | empty
  /-- The map of one entry. -/
  | singleton (stamp : Stamp) (key : κ) (value : ν)
  /-- A value is stored under a key, unless an equal one is there. -/
  | insert (before : Course κ ν) (stamp : Stamp) (key : κ) (value : ν)
  /-- The entry of a key is taken out. -/
  | erase (before : Course κ ν) (stamp : Stamp) (key : κ)
  /-- The entries of a second map are inserted into a first one. -/
  | merge (left : Course κ ν) (stamp : Stamp) (right : Course κ ν)
  /-- The entries from one key up to but without another one. -/
  | segment (before : Course κ ν) (stamp : Stamp) (first stop : κ)
  /-- The entries from a key on. -/
  | dropBefore (before : Course κ ν) (stamp : Stamp) (first : κ)
  /-- The entries before a key. -/
  | takeBefore (before : Course κ ν) (stamp : Stamp) (stop : κ)

namespace Course

variable [BEq ν] (cmp : κ → κ → Ordering)

/-- The map that a course leads to. -/
def map : Course κ ν → Except Failure (SortedMap κ ν cmp)
  | empty => .ok SortedMap.empty
  | singleton stamp key value => .ok (SortedMap.singleton stamp key value)
  | insert before stamp key value => do
    return (← before.map).insert stamp key value
  | erase before stamp key => do (← before.map).erase stamp key
  | merge left stamp right => do
    return (← left.map).merge stamp (← right.map)
  | segment before stamp first stop => do
    return (← before.map).segment stamp first stop
  | dropBefore before stamp first => do
    return (← before.map).dropBefore stamp first
  | takeBefore before stamp stop => do
    return (← before.map).takeBefore stamp stop

/-- The rows that a course leads to. -/
def rows : Course κ ν → List (κ × ν)
  | empty => []
  | singleton _ key value => [(key, value)]
  | insert before _ key value => storeNew cmp key value before.rows
  | erase before _ key => before.rows.filter fun x => !hasKey cmp key x
  | merge left _ right =>
    right.rows.foldl (fun rows x => storeNew cmp x.1 x.2 rows) left.rows
  | segment before _ first stop =>
    before.rows.filter fun x => cmp x.1 first != .lt && cmp x.1 stop == .lt
  | dropBefore before _ first =>
    before.rows.filter fun x => cmp x.1 first != .lt
  | takeBefore before _ stop =>
    before.rows.filter fun x => cmp x.1 stop == .lt

end Course

variable {cmp : κ → κ → Ordering} {map : SortedMap κ ν cmp}

-- ================================================================== ends

theorem min?_eq (map : SortedMap κ ν cmp) :
    map.min? = map.entries.head? :=
  Tree.min?_eq map.tree

theorem max?_eq (map : SortedMap κ ν cmp) :
    map.max? = map.entries.getLast? :=
  Tree.max?_eq map.tree

/-- The first key is missing where there is no entry. -/
theorem firstKey_eq_error :
    map.firstKey = .error (.emptyCollection "first_key")
      ↔ map.entries = [] := by
  rw [firstKey, min?_eq]
  cases map.entries with
  | nil => simp
  | cons x rest => simp

theorem firstKey_eq_ok {x : κ × ν} (h : map.entries.head? = some x) :
    map.firstKey = .ok x.1 := by
  rw [firstKey, min?_eq, h]

/-- The last key is missing where there is no entry. -/
theorem lastKey_eq_error :
    map.lastKey = .error (.emptyCollection "last_key")
      ↔ map.entries = [] := by
  rw [lastKey, max?_eq, ← List.getLast?_eq_none_iff]
  cases map.entries.getLast? with
  | none => simp
  | some x => simp

theorem lastKey_eq_ok {x : κ × ν} (h : map.entries.getLast? = some x) :
    map.lastKey = .ok x.1 := by
  rw [lastKey, max?_eq, h]

-- =============================================================== courses

variable [BEq ν] [Std.TransCmp cmp]

/-- Every course leads to a map, which has the rows for entries. -/
theorem course_spec (course : Course κ ν) :
    ∃ map, course.map cmp = .ok map ∧ Sound map
      ∧ map.entries = course.rows cmp := by
  induction course with
  | empty => exact ⟨_, rfl, sound_empty, rfl⟩
  | singleton => exact ⟨_, rfl, sound_singleton, rfl⟩
  | insert before stamp key value ih =>
      obtain ⟨map, hmap, hsound, hrows⟩ := ih
      have hinsert := insert_spec hsound stamp key value
      rw [hrows] at hinsert
      refine ⟨map.insert stamp key value, ?_, hinsert⟩
      rw [Course.map, hmap]
      rfl
  | erase before stamp key ih =>
      obtain ⟨map, hmap, hsound, hrows⟩ := ih
      obtain ⟨rest, herase, hrest⟩ := erase_spec hsound stamp key
      rw [hrows] at hrest
      refine ⟨rest, ?_, hrest⟩
      rw [Course.map, hmap]
      exact herase
  | merge left stamp right ihl ihr =>
      obtain ⟨map, hmap, hsound, hrows⟩ := ihl
      obtain ⟨other, hother, hsound', hrows'⟩ := ihr
      have hmerge := merge_spec hsound stamp hsound'
      rw [hrows, hrows'] at hmerge
      refine ⟨map.merge stamp other, ?_, hmerge⟩
      rw [Course.map, hmap, hother]
      rfl
  | segment before stamp first stop ih =>
      obtain ⟨map, hmap, hsound, hrows⟩ := ih
      have hslice := segment_spec hsound stamp first stop
      rw [hrows] at hslice
      refine ⟨map.segment stamp first stop, ?_, hslice⟩
      rw [Course.map, hmap]
      rfl
  | dropBefore before stamp first ih =>
      obtain ⟨map, hmap, hsound, hrows⟩ := ih
      have hslice := dropBefore_spec hsound stamp first
      simp only [hrows, within, Bound.admitsFrom, Bound.admitsUpTo,
        Bool.and_true] at hslice
      refine ⟨map.dropBefore stamp first, ?_, hslice⟩
      rw [Course.map, hmap]
      rfl
  | takeBefore before stamp stop ih =>
      obtain ⟨map, hmap, hsound, hrows⟩ := ih
      have hslice := takeBefore_spec hsound stamp stop
      rw [hrows] at hslice
      refine ⟨map.takeBefore stamp stop, ?_, hslice⟩
      rw [Course.map, hmap]
      rfl

/-- The map of a course answers what its rows answer, which stand in
strict order: a search finds the one row that the comparison takes for
the key, a walk hands out the rows, the ends are the first row and the
last, and where there is no row the keys at the ends are refused. -/
theorem course_agrees_with_rows (course : Course κ ν) :
    let rows := course.rows cmp
    ∃ map, course.map cmp = .ok map ∧ Ordered cmp rows
      ∧ (∀ key, map.stored? key = rows.find? (hasKey cmp key)
        ∧ map.get? key = (rows.find? (hasKey cmp key)).map (·.2)
        ∧ map.contains key = rows.any (hasKey cmp key))
      ∧ map.toList = rows
      ∧ map.min? = rows.head? ∧ map.max? = rows.getLast?
      ∧ (∀ x, rows.head? = some x → map.firstKey = .ok x.1)
      ∧ (map.firstKey = .error (.emptyCollection "first_key") ↔ rows = [])
      ∧ (∀ x, rows.getLast? = some x → map.lastKey = .ok x.1)
      ∧ (map.lastKey = .error (.emptyCollection "last_key") ↔ rows = [])
      ∧ map.size = rows.length := by
  intro rows
  obtain ⟨map, hmap, hsound, hrows⟩ := @course_spec κ ν cmp _ _ course
  replace hrows : map.entries = rows := hrows
  have hstored : ∀ key,
      map.stored? key = rows.find? (hasKey cmp key) := by
    intro key
    rw [stored?_eq hsound, hrows]
  rw [← hrows] at hstored ⊢
  refine ⟨map, hmap, hsound.ordered, fun key => ⟨hstored key, ?_, ?_⟩,
    toList_eq hsound, min?_eq map, max?_eq map, fun x => firstKey_eq_ok,
    firstKey_eq_error, fun x => lastKey_eq_ok, lastKey_eq_error,
    hsound.size_eq⟩
  · rw [get?, hstored]
  · rw [contains, hstored, List.isSome_find?]

/-- An order of the last digit alone. Of the keys 14, 24 and 34 the
first one stays, a slice leaves out 7, and 22 takes out 2. -/
theorem course_agrees_with_rows_mod :
    ∃ map : SortedMap Nat Nat (compareOn (· % 10)),
      Course.map _ (.erase (.takeBefore (.merge (.insert (.insert
          (.singleton 0 14 0) 1 2 1) 2 24 2) 3
          (.insert (.singleton 4 34 3) 5 7 4)) 6 6) 7 22) = .ok map
        ∧ map.toList = [(14, 3)] ∧ map.stored? 44 = some (14, 3)
        ∧ map.contains 2 = false ∧ map.firstKey = .ok 14
        ∧ map.size = 1 := by
  obtain ⟨map, hmap, -, hread, hlist, -, -, hfirst, -, -, -, hsize⟩ :=
    @course_agrees_with_rows Nat Nat (compareOn (· % 10)) _ _
      (.erase (.takeBefore (.merge (.insert (.insert
        (.singleton 0 14 0) 1 2 1) 2 24 2) 3
        (.insert (.singleton 4 34 3) 5 7 4)) 6 6) 7 22)
  exact ⟨map, hmap, hlist, (hread 44).1, (hread 2).2.2, hfirst _ rfl,
    hsize⟩

end SortedMap

end PersistentCollections
