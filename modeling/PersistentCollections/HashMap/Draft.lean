/-
Drafts: a hash map in the hands of one owner, for many edits in a row.

A draft always stores the value it is given, without comparing it to
the one there, and answers what an edit has displaced. Closing a draft
hands out the map and ends the draft: whatever is asked of it
afterwards is refused.
-/
import PersistentCollections.HashMap.Basic

namespace PersistentCollections.HashMap

variable {κ ν : Type}

/-- A map being edited, or nothing once it is closed. -/
structure Draft (κ ν : Type) where
  content : Option (HashMap κ ν)

/-- A draft that starts as `map`. -/
def draft (map : HashMap κ ν) : Draft κ ν := ⟨some map⟩

namespace Draft

/-- The draft without entries. -/
def empty : Draft κ ν := ⟨some HashMap.empty⟩

/-- The map under edit, unless the draft is closed. -/
def opened (draft : Draft κ ν) :
    Except Failure (HashMap κ ν) :=
  match draft.content with
  | some map => .ok map
  | none => .error (.draftClosed "TransientHashMap")

/-- The number of entries. -/
def size (draft : Draft κ ν) : Except Failure Nat :=
  draft.opened.map HashMap.size

/-- Whether the draft has no entries. -/
def isEmpty (draft : Draft κ ν) : Except Failure Bool :=
  draft.opened.map HashMap.isEmpty

/-- The value of the null slot. -/
def getNull? (draft : Draft κ ν) : Except Failure (Option ν) :=
  draft.opened.map HashMap.getNull?

/-- Fills the null slot; answers the value it had. -/
def insertNull (draft : Draft κ ν) (stamp : Stamp) (value : ν) :
    Except Failure (Option ν × Draft κ ν) := do
  let map ← draft.opened
  return (map.getNull?, (map.putNull ⟨stamp, value⟩).draft)

/-- Empties the null slot; answers the value it had. -/
def eraseNull (draft : Draft κ ν) :
    Except Failure (Option ν × Draft κ ν) := do
  let map ← draft.opened
  return (map.getNull?, map.eraseNull.draft)

/-- Ends the draft and answers its map. -/
def close (draft : Draft κ ν) :
    Except Failure (HashMap κ ν × Draft κ ν) := do
  return (← draft.opened, ⟨none⟩)

section Keys

variable [BEq κ] [Hashable κ]

/-- The value of a key, if there is one. -/
def get? (draft : Draft κ ν) (key : κ) :
    Except Failure (Option ν) :=
  draft.opened.map (HashMap.get? · key)

/-- Whether there is an entry for a key. -/
def contains (draft : Draft κ ν) (key : κ) :
    Except Failure Bool :=
  (draft.get? key).map Option.isSome

/-- Stores a value under a key; answers the value it had. -/
def insert (draft : Draft κ ν) (stamp : Stamp) (key : κ) (value : ν) :
    Except Failure (Option ν × Draft κ ν) := do
  let (previous, map) ← (← draft.opened).put stamp key value
  return (previous, map.draft)

/-- Takes out the entry of a key; answers the value it had. -/
def erase (draft : Draft κ ν) (stamp : Stamp) (key : κ) :
    Except Failure (Option ν × Draft κ ν) := do
  let map ← draft.opened
  match ← Failure.ofShape (map.find? key) with
  | none => return (none, draft)
  | some _ =>
    let (value, map) ← map.take stamp key
    return (some value, map.draft)

/-- Stores one value after the other. -/
def insertAll (draft : Draft κ ν) (stamp : Stamp)
    (entries : List (κ × ν)) : Except Failure (Draft κ ν) := do
  return (← (← draft.opened).putAll stamp entries).draft

end Keys

end Draft

end PersistentCollections.HashMap
