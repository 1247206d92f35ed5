/-
Walking the entries between two bounds from both ends.

Each end seeks its first entry from the root. The two entries found
this way are the outermost ones inside the bounds; if they are missing
or stand in the wrong order, there is none. An end stops when it has
passed the outermost entry of the other side, or has met the last entry
that the other end took; from then on the range is used up for good.
-/
import PersistentCollections.SortedMap.Walk

namespace PersistentCollections.SortedMap

variable {κ ν : Type}

/-- One side of an interval of keys. -/
inductive Bound (κ : Type) where
  | included (key : κ)
  | excluded (key : κ)
  | unbounded

namespace Bound

/-- Whether `key` lies inside a bound from below. -/
def admitsFrom (cmp : κ → κ → Ordering) (key : κ) : Bound κ → Bool
  | included least => cmp key least != .lt
  | excluded below => cmp key below == .gt
  | unbounded => true

/-- Whether `key` lies inside a bound from above. -/
def admitsUpTo (cmp : κ → κ → Ordering) (key : κ) : Bound κ → Bool
  | included greatest => cmp key greatest != .gt
  | excluded above => cmp key above == .lt
  | unbounded => true

end Bound

namespace Trail

/-- The way to the first entry inside a bound from below. -/
def seekFirst (cmp : κ → κ → Ordering) (bound : Bound κ) :
    Tree κ ν → Trail κ ν → Trail κ ν
  | .leaf, trail => trail
  | .node _ before x after, trail =>
    if bound.admitsFrom cmp x.1 then
      seekFirst cmp bound before ((x, after) :: trail)
    else
      seekFirst cmp bound after trail

/-- The way to the last entry inside a bound from above. -/
def seekLast (cmp : κ → κ → Ordering) (bound : Bound κ) :
    Tree κ ν → Trail κ ν → Trail κ ν
  | .leaf, trail => trail
  | .node _ before x after, trail =>
    if bound.admitsUpTo cmp x.1 then
      seekLast cmp bound after ((x, before) :: trail)
    else
      seekLast cmp bound before trail

/-- The key of the nearest entry. -/
def key? (trail : Trail κ ν) : Option κ := trail.head?.map (·.1.1)

end Trail

/-- A walk over the entries between two bounds from both ends. -/
structure Range (κ ν : Type) where
  /-- The trail of the front end. -/
  front : Trail κ ν
  /-- The trail of the back end. -/
  back : Trail κ ν
  /-- The first and the last key inside the bounds; none once the range
  is used up. -/
  outermost : Option (κ × κ)
  /-- The key that the front end took last. -/
  frontLast : Option κ
  /-- The key that the back end took last. -/
  backLast : Option κ

namespace Range

/-- The range of a tree between two bounds. -/
def start (cmp : κ → κ → Ordering) (tree : Tree κ ν)
    (lower upper : Bound κ) : Range κ ν :=
  let front := Trail.seekFirst cmp lower tree []
  let back := Trail.seekLast cmp upper tree []
  let outermost :=
    match front.key?, back.key? with
    | some low, some high =>
      if cmp low high != .gt then some (low, high) else none
    | _, _ => none
  ⟨front, back, outermost, none, none⟩

/-- Takes the first entry still to come. -/
def next (cmp : κ → κ → Ordering) (range : Range κ ν) :
    Option (κ × ν) × Range κ ν :=
  match range.outermost, range.front.advance? with
  | some (_, high), some (entry, front) =>
    let met :=
      match range.backLast with
      | some last => cmp entry.1 last != .lt
      | none => false
    if cmp entry.1 high == .gt || met then
      (none, { range with front, outermost := none })
    else
      (some entry, { range with front, frontLast := some entry.1 })
  | _, _ => (none, range)

/-- Takes the last entry still to come. -/
def nextBack (cmp : κ → κ → Ordering) (range : Range κ ν) :
    Option (κ × ν) × Range κ ν :=
  match range.outermost, range.back.retreat? with
  | some (low, _), some (entry, back) =>
    let met :=
      match range.frontLast with
      | some last => cmp entry.1 last != .gt
      | none => false
    if cmp entry.1 low == .lt || met then
      (none, { range with back, outermost := none })
    else
      (some entry, { range with back, backLast := some entry.1 })
  | _, _ => (none, range)

end Range

end PersistentCollections.SortedMap
