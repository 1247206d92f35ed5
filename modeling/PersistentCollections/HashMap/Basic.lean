/-
Persistent hash maps: a trie of entries, and one slot beside it that no
key addresses, the null slot.

Every edit leaves the map it reads as it is. An edit that would change
nothing hands back the same instance: storing a value equal to the one
stored, or removing a key that is not there. The edits that do change
something mark the instance they make with the stamp they are given.
-/
import PersistentCollections.Edit
import PersistentCollections.HashMap.Node.Erase
import PersistentCollections.HashMap.Node.Insert
import PersistentCollections.HashMap.Walk
import PersistentCollections.Steps
import PersistentCollections.Text

namespace PersistentCollections

/-- A map from keys to values, found by the hash of the key. -/
structure HashMap (κ ν : Type) where
  /-- The trie of all entries with a key; absent if there are none. -/
  root : Option (Stamped (HashMap.Node κ ν))
  /-- The number of entries, the null slot included if it is filled. -/
  size : Nat
  /-- The null slot. -/
  nullSlot : Option (Stamped ν)

namespace HashMap

variable {κ ν : Type}

/-- The map without entries. -/
def empty : HashMap κ ν := ⟨none, 0, none⟩

/-- Whether the map has no entries. -/
def isEmpty (map : HashMap κ ν) : Bool := map.size == 0

/-- Whether the null slot is filled. -/
def hasNull (map : HashMap κ ν) : Bool := map.nullSlot.isSome

/-- The value of the null slot. -/
def getNull? (map : HashMap κ ν) : Option ν :=
  map.nullSlot.map (·.value)

/-- Whether two maps are one instance: they share the root of the trie
and the null slot. -/
def same (left right : HashMap κ ν) : Bool :=
  Stamped.same left.root right.root
    && Stamped.same left.nullSlot right.nullSlot

-- =========================================================== entries

/-- The number of entries that have a key. -/
def keyedSize (map : HashMap κ ν) : Nat :=
  map.size - map.hasNull.toNat

/-- A walk over the entries that have a key. -/
def walk (map : HashMap κ ν) : Walk κ ν :=
  Walk.start (map.root.map (·.value)) map.keyedSize

/-- The entries that have a key, in the order of the trie. -/
def toList (map : HashMap κ ν) : List (κ × ν) :=
  Steps.toList Walk.next map.keyedSize map.walk

/-- The keys in the order of the trie. -/
def keys (map : HashMap κ ν) : List κ := map.toList.map (·.1)

/-- The values of the keys in the order of the trie. -/
def values (map : HashMap κ ν) : List ν := map.toList.map (·.2)

/-- All entries: the null slot first, if it is filled, and then those
that have a key. -/
def entries (map : HashMap κ ν) : List (Option κ × ν) :=
  (map.getNull?.toList.map fun value => (none, value))
    ++ map.toList.map fun (key, value) => (some key, value)

-- ============================================================ lookup

section Lookup

variable [BEq κ] [Hashable κ]

/-- The entry of a key; the outer `none` is a trie out of shape. -/
def find? (map : HashMap κ ν) (key : κ) : Option (Option (κ × ν)) :=
  match map.root with
  | none => some none
  | some root => root.value.find? (hash key) key digitsPerHash

/-- The entry of a key as it is stored, if there is one. -/
def stored? (map : HashMap κ ν) (key : κ) : Option (κ × ν) :=
  (map.find? key).join

/-- The value of a key, if there is one. -/
def get? (map : HashMap κ ν) (key : κ) : Option ν :=
  (map.stored? key).map (·.2)

/-- Whether the map has an entry for a key. -/
def contains (map : HashMap κ ν) (key : κ) : Bool :=
  (map.stored? key).isSome

-- ============================================================= edits

/-- Stores a value under a key, whatever is stored there; answers the
value that the key had. -/
def put (map : HashMap κ ν) (stamp : Stamp) (key : κ) (value : ν) :
    Except Failure (Option ν × HashMap κ ν) := do
  let root := (map.root.map (·.value)).getD Node.empty
  let (previous, root) ← Failure.ofShape
    (root.insert? (hash key) key value digitsPerHash)
  return (previous, { map with
    root := some ⟨stamp, root⟩
    size := map.size + previous.isNone.toNat })

/-- Takes out the entry of a key that is there; answers its value. -/
def take (map : HashMap κ ν) (stamp : Stamp) (key : κ) :
    Except Failure (ν × HashMap κ ν) := do
  let root := (map.root.map (·.value)).getD Node.empty
  let (entry, root) ← Failure.ofShape
    (root.erase? (hash key) key digitsPerHash)
  return (entry.2, { map with
    root := if root.isEmpty then none else some ⟨stamp, root⟩
    size := map.size - 1 })

/-- The map without the entry of a key. -/
def erase (map : HashMap κ ν) (stamp : Stamp) (key : κ) :
    Except Failure (HashMap κ ν) := do
  match ← Failure.ofShape (map.find? key) with
  | none => return map
  | some _ => return (← map.take stamp key).2

/-- Fills the null slot, whatever it holds. -/
def putNull (map : HashMap κ ν) (slot : Stamped ν) : HashMap κ ν :=
  { map with
    nullSlot := some slot
    size := map.size + map.nullSlot.isNone.toNat }

/-- The map with an empty null slot. -/
def eraseNull (map : HashMap κ ν) : HashMap κ ν :=
  if map.hasNull then
    { map with nullSlot := none, size := map.size - 1 }
  else
    map

/-- Stores one value after the other, whatever is stored there. -/
def putAll (map : HashMap κ ν) (stamp : Stamp)
    (entries : List (κ × ν)) : Except Failure (HashMap κ ν) :=
  entries.foldlM (fun map (key, value) => do
    return (← map.put stamp key value).2) map

/-- The map of one entry. -/
def singleton (stamp : Stamp) (key : κ) (value : ν) :
    Except Failure (HashMap κ ν) := do
  return (← empty.put stamp key value).2

/-- The map of some entries; of equal keys the first is kept, and the
last value. -/
def ofList (stamp : Stamp) (entries : List (κ × ν)) :
    Except Failure (HashMap κ ν) :=
  empty.putAll stamp entries

/-- The entries of both maps, the keys of `left` before those of
`right`, and the values of `right` before those of `left`. -/
def merge (left : HashMap κ ν) (stamp : Stamp) (right : HashMap κ ν) :
    Except Failure (HashMap κ ν) :=
  if left.isEmpty then
    .ok right
  else do
    let merged ← left.putAll stamp right.toList
    match right.nullSlot with
    | none => return merged
    | some slot => return merged.putNull slot

section Values

variable [BEq ν]

/-- The map with a value under a key; the same map if an equal value is
stored there. -/
def insert (map : HashMap κ ν) (stamp : Stamp) (key : κ) (value : ν) :
    Except Failure (HashMap κ ν) := do
  match ← Failure.ofShape (map.find? key) with
  | some (_, stored) =>
    if stored == value then
      return map
    else
      return (← map.put stamp key value).2
  | none => return (← map.put stamp key value).2

/-- The map with a value in the null slot; the same map if an equal
value is there. -/
def insertNull (map : HashMap κ ν) (stamp : Stamp) (value : ν) :
    HashMap κ ν :=
  if map.getNull? == some value then
    map
  else
    map.putNull ⟨stamp, value⟩

/-- Puts in place of a value what `change` makes of it; an absent value
is `none` on either side. The stored key is kept. -/
def alter (map : HashMap κ ν) (stamp : Stamp) (key : κ)
    (change : Option ν → Option ν) :
    Except Failure (HashMap κ ν) := do
  match ← Failure.ofShape (map.find? key) with
  | some (storedKey, stored) =>
    match change (some stored) with
    | some value => map.insert stamp storedKey value
    | none => map.erase stamp key
  | none =>
    match change none with
    | some value => map.insert stamp key value
    | none => return map

/-- Maps are equal if they are one instance. Otherwise they have to
have equal null slots, equally many entries, and in `right` an equal
value under every key of `left`. -/
instance : BEq (HashMap κ ν) where
  beq left right :=
    left.same right
      || (left.size == right.size
        && left.getNull? == right.getNull?
        && left.toList.all fun (key, value) =>
          right.get? key == some value)

end Values

end Lookup

-- =============================================================== text

/-- A key that may be absent. -/
def keyText (key : κ → String) : Option κ → String
  | none => "None"
  | some k => "Some(" ++ key k ++ ")"

/-- The entries between braces, keys and values by their own rules; the
null slot comes first, as the absent key. -/
def text (key : κ → String) (value : ν → String) (map : HashMap κ ν) :
    String :=
  Text.braced
    (map.entries.map fun (k, v) => Text.entry (keyText key k) (value v))

end HashMap

end PersistentCollections
