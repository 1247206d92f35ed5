/-
Persistent maps that keep the order in which keys arrived.

Each key gets a ticket when it comes in, one more than the last. A hash
map finds the ticket and the value of a key, and a sorted map finds the
key of a ticket; walking the tickets in order replays the arrivals. A
key that is stored again keeps its ticket; one that was removed gets a
new one.

Tickets are numbers without an end. Counted in machine words they would
run out at the arrival after 2 ^ 64 - 1 others, and since arrivals come
one by one and are never shared between maps, no run gets there.
-/
import PersistentCollections.HashMap.Basic
import PersistentCollections.SortedMap.Basic
import PersistentCollections.Text

namespace PersistentCollections

/-- A map from keys to values in order of arrival. -/
structure ArrivalMap (κ ν : Type) where
  /-- The ticket and the value of each key. -/
  entries : HashMap κ (Nat × ν)
  /-- The key of each ticket. -/
  order : SortedMap Nat κ compare
  /-- The ticket of the next key to arrive. -/
  nextTicket : Nat

namespace ArrivalMap

variable {κ ν : Type}

/-- The map without entries. -/
def empty : ArrivalMap κ ν := ⟨HashMap.empty, SortedMap.empty, 0⟩

/-- The number of entries. -/
def size (map : ArrivalMap κ ν) : Nat := map.order.size

/-- Whether the map has no entries. -/
def isEmpty (map : ArrivalMap κ ν) : Bool := map.order.isEmpty

/-- Whether two maps are one instance. -/
def same (left right : ArrivalMap κ ν) : Bool :=
  left.entries.same right.entries && left.order.same right.order

variable [BEq κ] [Hashable κ]

-- ============================================================ lookup

/-- The value of a key, if there is one. -/
def get? (map : ArrivalMap κ ν) (key : κ) : Option ν :=
  (map.entries.get? key).map (·.2)

/-- Whether the map has an entry for a key. -/
def contains (map : ArrivalMap κ ν) (key : κ) : Bool :=
  map.entries.contains key

/-- The entry of a key as it is stored, without its ticket. -/
def stored? (map : ArrivalMap κ ν) (key : κ) : Option (κ × ν) :=
  (map.entries.stored? key).map fun (key, _, value) => (key, value)

-- =========================================================== entries

/-- A walk over the tickets from both ends. -/
abbrev Walk (κ : Type) := SortedMap.Walk Nat κ

/-- A walk over all tickets. -/
def walk (map : ArrivalMap κ ν) : Walk κ := map.order.walk

/-- Steps over tickets until one has an entry, at most `bound` times
after the first. -/
def stepFound (map : ArrivalMap κ ν)
    (step : Walk κ → Option (Nat × κ) × Walk κ) :
    Nat → Walk κ → Option (κ × ν) × Walk κ
  | 0, walk => (none, walk)
  | bound + 1, walk =>
    match step walk with
    | (none, after) => (none, after)
    | (some (_, key), after) =>
      match map.stored? key with
      | some entry => (some entry, after)
      | none => stepFound map step bound after

/-- Takes the first entry still to come. -/
def next (map : ArrivalMap κ ν) (walk : Walk κ) :
    Option (κ × ν) × Walk κ :=
  map.stepFound SortedMap.Walk.next (walk.remaining + 1) walk

/-- Takes the last entry still to come. -/
def nextBack (map : ArrivalMap κ ν) (walk : Walk κ) :
    Option (κ × ν) × Walk κ :=
  map.stepFound SortedMap.Walk.nextBack (walk.remaining + 1) walk

/-- The entries in order of arrival. -/
def toList (map : ArrivalMap κ ν) : List (κ × ν) :=
  Steps.toList map.next map.size map.walk

/-- The entries from the last arrival to the first. -/
def toListBack (map : ArrivalMap κ ν) : List (κ × ν) :=
  Steps.toList map.nextBack map.size map.walk

/-- The keys in order of arrival. -/
def keys (map : ArrivalMap κ ν) : List κ := map.toList.map (·.1)

/-- The values in the order of arrival of their keys. -/
def values (map : ArrivalMap κ ν) : List ν := map.toList.map (·.2)

/-- The entry that arrived first, if there is one. -/
def first? (map : ArrivalMap κ ν) : Option (κ × ν) :=
  (map.next map.walk).1

/-- The entry that arrived last, if there is one. -/
def last? (map : ArrivalMap κ ν) : Option (κ × ν) :=
  (map.nextBack map.walk).1

-- ============================================================= edits

/-- The map without the entry of a key. -/
def erase (map : ArrivalMap κ ν) (stamp : Stamp) (key : κ) :
    Except Failure (ArrivalMap κ ν) :=
  match map.entries.get? key with
  | none => .ok map
  | some (ticket, _) => do
    return { map with
      entries := ← map.entries.erase stamp key
      order := ← map.order.erase stamp ticket }

section Values

variable [BEq ν]

/-- The map with a value under a key; the same map if an equal value is
stored there. -/
def insert (map : ArrivalMap κ ν) (stamp : Stamp) (key : κ)
    (value : ν) : Except Failure (ArrivalMap κ ν) :=
  match map.entries.get? key with
  | some (ticket, stored) =>
    if stored == value then
      .ok map
    else do
      return { map with
        entries := ← map.entries.insert stamp key (ticket, value) }
  | none => do
    let entries ←
      map.entries.insert stamp key (map.nextTicket, value)
    return ⟨entries, map.order.insert stamp map.nextTicket key,
      map.nextTicket + 1⟩

/-- The map of some entries, stored one after the other. -/
def ofList (stamp : Stamp) (entries : List (κ × ν)) :
    Except Failure (ArrivalMap κ ν) :=
  entries.foldlM (fun map (key, value) => map.insert stamp key value)
    empty

/-- Maps are equal when their entries are, one by one in order of
arrival. -/
instance : BEq (ArrivalMap κ ν) where
  beq left right :=
    left.size == right.size && left.toList == right.toList

end Values

/-- The entries between braces, keys and values by their own rules. -/
def text (key : κ → String) (value : ν → String)
    (map : ArrivalMap κ ν) : String :=
  Text.braced (map.toList.map fun (k, v) => Text.entry (key k) (value v))

end ArrivalMap

end PersistentCollections
