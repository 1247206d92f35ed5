/-
Size tables: the running totals of a list of sizes, and the search for
the part that holds a position.

The search starts from a guess that would be right if all parts were
equally large, goes up past every total that the position has reached,
and then down while the total before still lies above it. On a table
that never decreases the answer is the first part whose total exceeds
the position, whatever the guess was.
-/

namespace PersistentCollections.Sequence.SizeTable

/-- The totals of `sizes` one after another, on top of `before`. -/
def totals (before : Nat) : List Nat → List Nat
  | [] => []
  | size :: sizes => (before + size) :: totals (before + size) sizes

/-- The last total of some sizes. -/
def sum : List Nat → Nat
  | [] => 0
  | size :: sizes => size + sum sizes

/-- Walks up from `part` past the totals that `index` has reached;
`none` if the table ends first. -/
def climb? (index part : Nat) : List Nat → Option Nat
  | [] => none
  | total :: rest =>
    if total ≤ index then climb? index (part + 1) rest else some part

/-- Walks down from `part` while the total before it exceeds `index`. -/
def descend? (table : List Nat) (index : Nat) : Nat → Option Nat
  | 0 => some 0
  | part + 1 =>
    match table[part]? with
    | none => none
    | some total =>
      if index < total then descend? table index part
      else some (part + 1)

/-- The part that would hold `index` if `total` were spread evenly over
`count` parts, within the table. -/
def guess (total count index : Nat) : Nat :=
  min (index / max (total / count) 1) (count - 1)

/-- The part that holds position `index`. -/
def part? (table : List Nat) (index : Nat) : Option Nat :=
  match table.getLast? with
  | none => none
  | some total =>
    let start := guess total table.length index
    match climb? index start (table.drop start) with
    | none => none
    | some part => descend? table index part

/-- The total of all parts before `part`. -/
def before? (table : List Nat) : Nat → Option Nat
  | 0 => some 0
  | part + 1 => table[part]?

end PersistentCollections.Sequence.SizeTable
