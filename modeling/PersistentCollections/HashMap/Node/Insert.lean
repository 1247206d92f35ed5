/-
Putting an entry into the trie.

The key goes down by the digits of its hash to a free slot, to an entry,
or to a bucket. A stored entry of an equal key keeps its key and gets
the new value. A stored entry of another key is replaced by a node that
holds both, as far down as their digits agree; two keys of one full
hash meet in a bucket. A bucket that meets another hash moves down
below branches for the digits on which the two hashes agree.
-/
import PersistentCollections.HashMap.Node

namespace PersistentCollections.HashMap.Node

variable {κ ν : Type}

/-- The node of two slots with different hashes, `left` digits above
the end: branches of one slot while the digits agree, and one of two
slots where they differ. -/
def fork? (hash : UInt64) (slot : Slot κ ν) (other : UInt64)
    (otherSlot : Slot κ ν) : Nat → Option (Node κ ν)
  | 0 => none
  | left + 1 =>
    let here := digit hash (left + 1)
    let there := digit other (left + 1)
    if here == there then do
      let child ← fork? hash slot other otherSlot left
      return packed (Taken.only here) [.node child]
    else
      some (two here slot there otherSlot)

/-- The node of two entries with `left` digits left. -/
def ofTwo? (left : Nat) (hash : UInt64) (key : κ) (value : ν)
    (other : UInt64) (otherKey : κ) (otherValue : ν) :
    Option (Node κ ν) :=
  if hash == other then
    some (bucket hash [(key, value), (otherKey, otherValue)])
  else
    fork? hash (.entry hash key value) other
      (.entry other otherKey otherValue) left

/-- A bucket with an entry of its hash: the value that the key had, if
any, and the entries after it. -/
def putEntry [BEq κ] (key : κ) (value : ν) :
    List (κ × ν) → Option ν × List (κ × ν)
  | [] => (none, [(key, value)])
  | (stored, old) :: rest =>
    if stored == key then
      (some old, (stored, value) :: rest)
    else
      let (previous, after) := putEntry key value rest
      (previous, (stored, old) :: after)

/-- Puts an entry below a node with so many digits left; answers the
value that the key had, if any, and the node after it. -/
def insert? [BEq κ] (hash : UInt64) (key : κ) (value : ν) :
    Nat → Node κ ν → Option (Option ν × Node κ ν)
  | left, node@(bucket stored entries) =>
    if stored == hash then
      let (previous, after) := putEntry key value entries
      some (previous, bucket stored after)
    else do
      let fork ← fork? stored (.node node) hash (.entry hash key value) left
      return (none, fork)
  | 0, _ => none
  | left + 1, node => do
    let here := digit hash (left + 1)
    match ← node.slot? here with
    | none => return (none, node.addSlot here (.entry hash key value))
    | some (.entry stored storedKey old) =>
      if stored == hash && storedKey == key then
        return (some old,
          node.setSlot here (.entry stored storedKey value))
      else
        let child ← ofTwo? left stored storedKey old hash key value
        return (none, node.setSlot here (.node child))
    | some (.node child) =>
      let (previous, child) ← insert? hash key value left child
      return (previous, node.setSlot here (.node child))

end PersistentCollections.HashMap.Node
