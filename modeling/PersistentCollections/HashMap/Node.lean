/-
The trie below a hash map.

A branch has one slot for each digit of the hash that occurs below it;
a slot holds one entry, or a node one level further down when more
entries share the digits read so far. A branch with few slots keeps
them side by side and marks their digits in a word; one that would
reach 16 slots has a cell for every digit instead, and goes back to the
first form when 8 or fewer cells are in use. Entries whose hashes are
equal in full share a bucket.

This module holds the types, the access to a branch by digit, and the
search. Functions that go down the trie count the digits that are left
and recurse on that count. A branch where no digit is left has no
answer: `none` stands for it, as it does for a branch whose slots do
not fit its marks.
-/
import PersistentCollections.HashMap.Digit

namespace PersistentCollections.HashMap

/-- The number of slots at which a branch gets a cell per digit. -/
abbrev spreadAt : Nat := 16

/-- The number of cells in use at which a branch is packed again. -/
abbrev packAt : Nat := 8

mutual

/-- A node of the trie. -/
inductive Node (κ ν : Type) where
  /-- A branch that keeps the slots of its taken digits. -/
  | packed (taken : Taken) (slots : List (Slot κ ν))
  /-- A branch with a cell for each digit, `count` of them in use. -/
  | spread (count : Nat) (cells : List (Option (Slot κ ν)))
  /-- The entries of one full hash. -/
  | bucket (hash : UInt64) (entries : List (κ × ν))

/-- What a branch holds for one digit. -/
inductive Slot (κ ν : Type) where
  /-- One entry, with its hash. -/
  | entry (hash : UInt64) (key : κ) (value : ν)
  /-- The entries that share one more digit. -/
  | node (child : Node κ ν)

end

namespace Node

variable {κ ν : Type}

/-- The branch without slots. -/
def empty : Node κ ν := packed Taken.empty []

/-- Whether the node is the branch without slots. -/
def isEmpty : Node κ ν → Bool
  | packed taken _ => taken == Taken.empty
  | _ => false

/-- The slots of a node in the order of their digits; the entries of a
bucket in their own order. -/
def slots : Node κ ν → List (Slot κ ν)
  | packed _ slots => slots
  | spread _ cells => cells.filterMap id
  | bucket hash entries => entries.map fun e => .entry hash e.1 e.2

-- ============================================ a branch by its digits

/-- The slot of a branch for a digit, if the digit occurs there. -/
def slot? (node : Node κ ν) (digit : Nat) :
    Option (Option (Slot κ ν)) :=
  match node with
  | packed taken slots =>
    if taken.has digit then
      (slots[taken.rank digit]?).map some
    else
      some none
  | spread _ cells => cells[digit]?
  | bucket _ _ => none

/-- The branch with another slot for a digit that occurs there. -/
def setSlot (node : Node κ ν) (digit : Nat) (slot : Slot κ ν) :
    Node κ ν :=
  match node with
  | packed taken slots => packed taken (slots.set (taken.rank digit) slot)
  | spread count cells => spread count (cells.set digit (some slot))
  | bucket hash entries => bucket hash entries

/-- The slots laid out in cells, for the digits from `digit` on, of
which there are `count`. -/
def cellsFrom (taken : Taken) (digit : Nat) :
    Nat → List (Slot κ ν) → List (Option (Slot κ ν))
  | 0, _ => []
  | count + 1, slots =>
    match taken.has digit, slots with
    | true, slot :: rest =>
      some slot :: cellsFrom taken (digit + 1) count rest
    | _, _ => none :: cellsFrom taken (digit + 1) count slots

/-- The branch with a slot for a digit that did not occur there. -/
def addSlot (node : Node κ ν) (digit : Nat) (slot : Slot κ ν) :
    Node κ ν :=
  match node with
  | packed taken slots =>
    if slots.length + 1 < spreadAt then
      packed (taken.add digit) (slots.insertIdx (taken.rank digit) slot)
    else
      spread (slots.length + 1)
        ((cellsFrom taken 0 digitCount slots).set digit (some slot))
  | spread count cells =>
    spread (count + 1) (cells.set digit (some slot))
  | bucket hash entries => bucket hash entries

/-- The digits of the cells in use, the first cell being `digit`. -/
def takenFrom (digit : Nat) : List (Option (Slot κ ν)) → Taken
  | [] => Taken.empty
  | none :: rest => takenFrom (digit + 1) rest
  | some _ :: rest => (takenFrom (digit + 1) rest).add digit

/-- The branch without its slot for a digit. -/
def dropSlot (node : Node κ ν) (digit : Nat) : Node κ ν :=
  match node with
  | packed taken slots =>
    packed (taken.drop digit) (slots.eraseIdx (taken.rank digit))
  | spread count cells =>
    let cells := cells.set digit none
    if count - 1 ≤ packAt then
      packed (takenFrom 0 cells) (cells.filterMap id)
    else
      spread (count - 1) cells
  | bucket hash entries => bucket hash entries

/-- The branch of two slots, in the order of their digits. -/
def two (digit : Nat) (slot : Slot κ ν) (other : Nat)
    (otherSlot : Slot κ ν) : Node κ ν :=
  packed ((Taken.only digit).add other)
    (if digit < other then [slot, otherSlot] else [otherSlot, slot])

-- ========================================================= searching

/-- The entry of a key below a node, as it is stored, if there is one. -/
def find? [BEq κ] (hash : UInt64) (key : κ) :
    Nat → Node κ ν → Option (Option (κ × ν))
  | _, bucket stored entries =>
    some (if stored == hash then entries.find? (·.1 == key) else none)
  | 0, _ => none
  | left + 1, node => do
    match ← node.slot? (digit hash (left + 1)) with
    | none => some none
    | some (.entry stored storedKey value) =>
      return if stored == hash && storedKey == key then
        some (storedKey, value)
      else
        none
    | some (.node child) => find? hash key left child

end Node

end PersistentCollections.HashMap
