/-
The digits of a hash and the occupancy of a branch.

A hash of 64 bits is read as 13 digits of 5 bits, the least significant
one first; the thirteenth has four bits. A branch reads one digit, so
there are at most 13 branches above any entry. How far down a branch
lies is told by the number of digits left, its own included: 13 at the
root, and none below the last branch.

A branch of few slots marks the digits that are taken in a word of 32
bits and keeps only their slots, in the order of the digits; the rank
of a digit is the number of taken digits below it.
-/

namespace PersistentCollections.HashMap

/-- The bits of one digit. -/
abbrev digitBits : Nat := 5

/-- The number of different digits. -/
abbrev digitCount : Nat := 32

/-- The digits of a hash. -/
abbrev digitsPerHash : Nat := 13

/-- The digit of `hash` that a branch reads with `left` digits left. -/
def digit (hash : UInt64) (left : Nat) : Nat :=
  (hash.toNat >>> (digitBits * (digitsPerHash - left))) % digitCount

/-- The digits of a branch that are taken. -/
abbrev Taken := BitVec 32

namespace Taken

/-- No digit taken. -/
def empty : Taken := 0#32

/-- Whether a digit is taken. -/
def has (taken : Taken) (digit : Nat) : Bool := taken.getLsbD digit

/-- One digit alone. -/
def only (digit : Nat) : Taken := 1#32 <<< digit

/-- The digits with one more. -/
def add (taken : Taken) (digit : Nat) : Taken := taken ||| only digit

/-- The digits with one less. -/
def drop (taken : Taken) (digit : Nat) : Taken :=
  taken &&& ~~~(only digit)

/-- The number of taken digits below `digit`. -/
def rank (taken : Taken) (digit : Nat) : Nat :=
  (List.range digit).countP taken.has

end Taken

end PersistentCollections.HashMap
