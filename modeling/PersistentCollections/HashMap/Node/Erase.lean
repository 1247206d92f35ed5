/-
Taking an entry out of the trie.

An entry in a slot of its own leaves with the slot. A node below that
is left with a single entry is replaced by that entry, level by level,
so no node but the root holds fewer than two.
-/
import PersistentCollections.HashMap.Node

namespace PersistentCollections.HashMap.Node

variable {κ ν : Type}

/-- The only entry of a node, as a slot, if it holds no more. -/
def single? : Node κ ν → Option (Slot κ ν)
  | packed _ [.entry hash key value] => some (.entry hash key value)
  | bucket hash [(key, value)] => some (.entry hash key value)
  | _ => none

/-- The first entry of a key in a bucket, and the entries without it. -/
def takeFirst? [BEq κ] (key : κ) :
    List (κ × ν) → Option ((κ × ν) × List (κ × ν))
  | [] => none
  | entry :: rest =>
    if entry.1 == key then
      some (entry, rest)
    else
      (takeFirst? key rest).map fun (taken, after) =>
        (taken, entry :: after)

/-- Takes the entry of a key out of a node that holds it. -/
def erase? [BEq κ] (hash : UInt64) (key : κ) :
    Nat → Node κ ν → Option ((κ × ν) × Node κ ν)
  | _, bucket stored entries =>
    if stored == hash then
      (takeFirst? key entries).map fun (taken, after) =>
        (taken, bucket stored after)
    else
      none
  | 0, _ => none
  | left + 1, node => do
    let here := digit hash (left + 1)
    match ← node.slot? here with
    | none => none
    | some (.entry stored storedKey value) =>
      if stored == hash && storedKey == key then
        return ((storedKey, value), node.dropSlot here)
      else
        none
    | some (.node child) =>
      let (taken, child) ← erase? hash key left child
      return (taken,
        node.setSlot here (child.single?.getD (.node child)))

end PersistentCollections.HashMap.Node
