/-
Persistent sorted maps: entries in the order of a comparison.

Two keys are one and the same for a map when its comparison finds them
equal, whether they are equal values or not; the key that was stored
first stays. The comparison belongs to the type of the map, so maps of
different orders cannot be mixed up, and equality of maps compares
entries as values, whatever the orders are.

Every edit leaves the map it reads as it is. An edit that would change
nothing hands back the same instance; the others mark the instance they
make with the stamp they are given.
-/
import PersistentCollections.Edit
import PersistentCollections.SortedMap.Range
import PersistentCollections.SortedMap.Tree.Build
import PersistentCollections.SortedMap.Tree.Erase
import PersistentCollections.Steps
import PersistentCollections.Text

namespace PersistentCollections

/-- A map from keys to values in the order of `cmp`. -/
structure SortedMap (κ ν : Type) (cmp : κ → κ → Ordering) where
  /-- The entries. -/
  tree : SortedMap.Tree κ ν
  /-- The number of entries. -/
  size : Nat
  /-- The edit that made the tree; without meaning if it is empty. -/
  stamp : Stamp

namespace SortedMap

variable {κ ν : Type} {cmp : κ → κ → Ordering}

/-- The map without entries. -/
def empty : SortedMap κ ν cmp := ⟨.leaf, 0, 0⟩

/-- The map of one entry. -/
def singleton (stamp : Stamp) (key : κ) (value : ν) :
    SortedMap κ ν cmp :=
  ⟨.node .black .leaf (key, value) .leaf, 1, stamp⟩

/-- The map of entries that are in order already. -/
def ofSorted (stamp : Stamp) (entries : List (κ × ν)) :
    SortedMap κ ν cmp :=
  ⟨Tree.ofSorted entries, entries.length, stamp⟩

/-- Whether the map has no entries. -/
def isEmpty (map : SortedMap κ ν cmp) : Bool := map.size == 0

/-- The tree with the edit that made it; nothing if it is empty. -/
def root (map : SortedMap κ ν cmp) : Option (Stamped (Tree κ ν)) :=
  if map.tree.isLeaf then none else some ⟨map.stamp, map.tree⟩

/-- Whether two maps are one instance. -/
def same (left right : SortedMap κ ν cmp) : Bool :=
  Stamped.same left.root right.root

-- ============================================================ lookup

/-- The entry whose key is the same as `key` for the map. -/
def stored? (map : SortedMap κ ν cmp) (key : κ) : Option (κ × ν) :=
  map.tree.find? cmp key

/-- The value of a key, if there is one. -/
def get? (map : SortedMap κ ν cmp) (key : κ) : Option ν :=
  (map.stored? key).map (·.2)

/-- Whether the map has an entry for a key. -/
def contains (map : SortedMap κ ν cmp) (key : κ) : Bool :=
  (map.stored? key).isSome

/-- The first entry, if there is one. -/
def min? (map : SortedMap κ ν cmp) : Option (κ × ν) := map.tree.min?

/-- The last entry, if there is one. -/
def max? (map : SortedMap κ ν cmp) : Option (κ × ν) := map.tree.max?

/-- The first key, where a missing one is an error. -/
def firstKey (map : SortedMap κ ν cmp) : Except Failure κ :=
  match map.min? with
  | some entry => .ok entry.1
  | none => .error (.emptyCollection "first_key")

/-- The last key, where a missing one is an error. -/
def lastKey (map : SortedMap κ ν cmp) : Except Failure κ :=
  match map.max? with
  | some entry => .ok entry.1
  | none => .error (.emptyCollection "last_key")

-- =========================================================== entries

/-- A walk over the entries from both ends. -/
def walk (map : SortedMap κ ν cmp) : Walk κ ν :=
  Walk.start map.tree map.size

/-- A walk over the entries between two bounds from both ends. -/
def range (map : SortedMap κ ν cmp) (lower upper : Bound κ) :
    Range κ ν :=
  Range.start cmp map.tree lower upper

/-- The entries in order. -/
def toList (map : SortedMap κ ν cmp) : List (κ × ν) :=
  Steps.toList Walk.next map.size map.walk

/-- The entries from the last to the first. -/
def toListBack (map : SortedMap κ ν cmp) : List (κ × ν) :=
  Steps.toList Walk.nextBack map.size map.walk

/-- The entries between two bounds in order. -/
def between (map : SortedMap κ ν cmp) (lower upper : Bound κ) :
    List (κ × ν) :=
  Steps.toList (Range.next cmp) map.size (map.range lower upper)

/-- The entries between two bounds from the last to the first. -/
def betweenBack (map : SortedMap κ ν cmp) (lower upper : Bound κ) :
    List (κ × ν) :=
  Steps.toList (Range.nextBack cmp) map.size (map.range lower upper)

-- ============================================================= edits

/-- Stores a value under a key, whatever is stored there. -/
def put (map : SortedMap κ ν cmp) (stamp : Stamp) (key : κ)
    (value : ν) : SortedMap κ ν cmp :=
  let (tree, added) := map.tree.insert cmp key value
  ⟨tree.blackened, map.size + added.toNat, stamp⟩

/-- The map of some entries; of keys that are the same for it the first
is kept, and the last value. -/
def ofList (stamp : Stamp) (entries : List (κ × ν)) :
    SortedMap κ ν cmp :=
  entries.foldl (fun map (key, value) => map.put stamp key value) empty

/-- The map without the entry of a key. -/
def erase (map : SortedMap κ ν cmp) (stamp : Stamp) (key : κ) :
    Except Failure (SortedMap κ ν cmp) :=
  if map.contains key then do
    let tree ← Failure.ofShape (map.tree.erase? cmp key)
    return ⟨tree.blackened, map.size - 1, stamp⟩
  else
    .ok map

/-- The map with a value under a key; the same map if an equal value is
stored there. -/
def insert [BEq ν] (map : SortedMap κ ν cmp) (stamp : Stamp) (key : κ)
    (value : ν) : SortedMap κ ν cmp :=
  match map.stored? key with
  | some (_, stored) =>
    if stored == value then map else map.put stamp key value
  | none => map.put stamp key value

/-- The entries of both maps; the values of `right` go before those of
`left`. -/
def merge [BEq ν] (left : SortedMap κ ν cmp) (stamp : Stamp)
    (right : SortedMap κ ν cmp) : SortedMap κ ν cmp :=
  right.toList.foldl
    (fun map (key, value) => map.insert stamp key value) left

-- ============================================================ slices

/-- The map of the entries between two bounds, built anew; the same map
if these are all. -/
def restrict (map : SortedMap κ ν cmp) (stamp : Stamp)
    (lower upper : Bound κ) : SortedMap κ ν cmp :=
  let entries := map.between lower upper
  if entries.length = map.size then
    map
  else
    ofSorted stamp entries

/-- The entries from `first` up to but without `stop`. -/
def segment (map : SortedMap κ ν cmp) (stamp : Stamp)
    (first stop : κ) : SortedMap κ ν cmp :=
  if cmp first stop != .lt then
    empty
  else
    match map.min?, map.max? with
    | some (least, _), some (greatest, _) =>
      if cmp first least != .gt && cmp stop greatest == .gt then
        map
      else if cmp stop least != .gt || cmp first greatest == .gt then
        empty
      else
        map.restrict stamp (.included first) (.excluded stop)
    | _, _ => map

/-- The entries from `first` on. -/
def dropBefore (map : SortedMap κ ν cmp) (stamp : Stamp) (first : κ) :
    SortedMap κ ν cmp :=
  match map.min?, map.max? with
  | some (least, _), some (greatest, _) =>
    if cmp first least != .gt then
      map
    else if cmp first greatest == .gt then
      empty
    else
      map.restrict stamp (.included first) .unbounded
  | _, _ => map

/-- The entries before `stop`. -/
def takeBefore (map : SortedMap κ ν cmp) (stamp : Stamp) (stop : κ) :
    SortedMap κ ν cmp :=
  match map.min?, map.max? with
  | some (least, _), some (greatest, _) =>
    if cmp stop greatest == .gt then
      map
    else if cmp stop least != .gt then
      empty
    else
      map.restrict stamp .unbounded (.excluded stop)
  | _, _ => map

-- ============================================== equality and hashing

/-- Whether two maps, of whatever orders, have equal entries one by
one. -/
def equal [BEq κ] [BEq ν] {other : κ → κ → Ordering}
    (left : SortedMap κ ν cmp) (right : SortedMap κ ν other) : Bool :=
  left.size == right.size && left.toList == right.toList

instance [BEq κ] [BEq ν] : BEq (SortedMap κ ν cmp) := ⟨equal⟩

/-- Gives a hasher what a map is made of: its size, and then each key
and its value in order. -/
def feed {σ : Type} (count : σ → Nat → σ) (key : σ → κ → σ)
    (value : σ → ν → σ) (state : σ) (map : SortedMap κ ν cmp) : σ :=
  map.toList.foldl (fun state entry => value (key state entry.1) entry.2)
    (count state map.size)

instance [Hashable κ] [Hashable ν] : Hashable (SortedMap κ ν cmp) where
  hash := feed (fun state size => mixHash state (hash size))
    (fun state key => mixHash state (hash key))
    (fun state value => mixHash state (hash value)) 7

-- ================================================== text and listings

/-- The entries between braces, keys and values by their own rules. -/
def text (key : κ → String) (value : ν → String)
    (map : SortedMap κ ν cmp) : String :=
  Text.braced (map.toList.map fun (k, v) => Text.entry (key k) (value v))

/-- The entries under their number. -/
def listing (map : SortedMap κ ν cmp) : Listing (κ × ν) :=
  ⟨map.size, map.toList⟩

/-- The map of listed entries, in an order of its own. -/
def ofListing (stamp : Stamp) (listing : Listing (κ × ν)) :
    SortedMap κ ν cmp :=
  ofList stamp listing.items

/-- The map as a JSON object; `key` writes keys with their quotes. -/
def json (key : κ → String) (value : ν → String)
    (map : SortedMap κ ν cmp) : String :=
  Json.object (map.listing.items.map fun (k, v) => (key k, value v))

end SortedMap

end PersistentCollections
