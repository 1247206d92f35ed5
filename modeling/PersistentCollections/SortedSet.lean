/-
Persistent sorted sets: the keys of a sorted map whose values say
nothing. All laws of order, slices and instances are those of the map.
-/
import PersistentCollections.SortedMap.Basic
import PersistentCollections.Text

namespace PersistentCollections

/-- A set of elements in the order of `cmp`. -/
structure SortedSet (α : Type) (cmp : α → α → Ordering) where
  /-- The elements as keys. -/
  map : SortedMap α Unit cmp

namespace SortedSet

variable {α : Type} {cmp : α → α → Ordering}

/-- The set without elements. -/
def empty : SortedSet α cmp := ⟨SortedMap.empty⟩

/-- The number of elements. -/
def size (set : SortedSet α cmp) : Nat := set.map.size

/-- Whether the set has no elements. -/
def isEmpty (set : SortedSet α cmp) : Bool := set.map.isEmpty

/-- Whether two sets are one instance. -/
def same (left right : SortedSet α cmp) : Bool := left.map.same right.map

/-- Whether the set has an element that is the same as `value` for
it. -/
def contains (set : SortedSet α cmp) (value : α) : Bool :=
  set.map.contains value

/-- The first element, where a missing one is an error. -/
def first (set : SortedSet α cmp) : Except Failure α :=
  set.map.firstKey

/-- The last element, where a missing one is an error. -/
def last (set : SortedSet α cmp) : Except Failure α :=
  set.map.lastKey

-- ========================================================== elements

/-- A walk over the elements from both ends. -/
def walk (set : SortedSet α cmp) : SortedMap.Walk α Unit := set.map.walk

/-- Takes the first element still to come. -/
def next (walk : SortedMap.Walk α Unit) :
    Option α × SortedMap.Walk α Unit :=
  (walk.next.1.map (·.1), walk.next.2)

/-- Takes the last element still to come. -/
def nextBack (walk : SortedMap.Walk α Unit) :
    Option α × SortedMap.Walk α Unit :=
  (walk.nextBack.1.map (·.1), walk.nextBack.2)

/-- The elements in order. -/
def toList (set : SortedSet α cmp) : List α :=
  Steps.toList next set.size set.walk

/-- The elements from the last to the first. -/
def toListBack (set : SortedSet α cmp) : List α :=
  Steps.toList nextBack set.size set.walk

-- ============================================================= edits

/-- The set with an element; the same set if it has it. -/
def insert (set : SortedSet α cmp) (stamp : Stamp) (value : α) :
    SortedSet α cmp :=
  ⟨set.map.insert stamp value ()⟩

/-- The set without an element; the same set if it does not have it. -/
def erase (set : SortedSet α cmp) (stamp : Stamp) (value : α) :
    Except Failure (SortedSet α cmp) := do
  return ⟨← set.map.erase stamp value⟩

/-- The set of some elements; of elements that are the same for it the
first is kept. -/
def ofList (stamp : Stamp) (values : List α) : SortedSet α cmp :=
  ⟨SortedMap.ofList stamp (values.map fun value => (value, ()))⟩

/-- The elements from `first` up to but without `stop`. -/
def segment (set : SortedSet α cmp) (stamp : Stamp) (first stop : α) :
    SortedSet α cmp :=
  ⟨set.map.segment stamp first stop⟩

/-- The elements from `first` on. -/
def dropBefore (set : SortedSet α cmp) (stamp : Stamp) (first : α) :
    SortedSet α cmp :=
  ⟨set.map.dropBefore stamp first⟩

/-- The elements before `stop`. -/
def takeBefore (set : SortedSet α cmp) (stamp : Stamp) (stop : α) :
    SortedSet α cmp :=
  ⟨set.map.takeBefore stamp stop⟩

-- ===================================== equality, hashing and writing

/-- Whether two sets, of whatever orders, have equal elements one by
one. -/
def equal [BEq α] {other : α → α → Ordering} (left : SortedSet α cmp)
    (right : SortedSet α other) : Bool :=
  left.map.equal right.map

instance [BEq α] : BEq (SortedSet α cmp) := ⟨equal⟩

/-- Gives a hasher what a set is made of: its size, and then the
elements in order. -/
def feed {σ : Type} (count : σ → Nat → σ) (element : σ → α → σ)
    (state : σ) (set : SortedSet α cmp) : σ :=
  set.map.feed count element (fun state _ => state) state

instance [Hashable α] : Hashable (SortedSet α cmp) where
  hash := feed (fun state size => mixHash state (hash size))
    (fun state value => mixHash state (hash value)) 7

/-- The elements between braces, each by its own rule. -/
def text (element : α → String) (set : SortedSet α cmp) : String :=
  Text.braced (set.toList.map element)

end SortedSet

end PersistentCollections
