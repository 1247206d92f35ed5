/-
What an edit of a collection answers: a result, of which one can tell
which edit made it, or the cause why there is none.

A cause holds the numbers and names of its text and nothing else, so a
caller can tell the causes apart without reading the text. Two of them
answer no question about an argument.

`brokenInvariant` is where no argument of a caller leads. Every tree of
this library is edited by code that relies on the shape the tree has (a
branch has a child where its sizes say so, the black height is even, …),
and an edit that meets another shape stops with this cause instead of
answering something made up. That no sequence of edits leads there is a
fact to prove, not an assumption of the code.

`overflow` is where the numbers of a collection end. They are counted in
machine words, and shared trees let a sequence have more elements than
any memory could hold one by one, so an edit can come to a number that
no word holds. It stops there; a number that went on from zero would be
the wrong one.

A collection that an edit leaves as it was is handed back as the very
same instance, and callers may ask for that without comparing contents.
An instance is a value together with the stamp of the edit that made
it. Whoever runs edits gives each of them a stamp that none before it
had; then two instances with one stamp come from one edit and hold one
value.
-/

namespace PersistentCollections

-- =========================================================== failures

/-- Why an operation on a collection has no result. -/
inductive Failure where
  /-- A position past the end of a collection of the given length. -/
  | outOfBounds (index length : Nat)
  /-- An operation that needs an element met an empty collection. -/
  | emptyCollection (operation : String)
  /-- A draft was used after it had been closed. -/
  | draftClosed (draft : String)
  /-- A subscript past the end, where "absent" is no possible answer. -/
  | badSubscript (collection : String) (index length : Nat)
  /-- A tree has a shape that no sequence of edits produces. -/
  | brokenInvariant
  /-- An operation of arithmetic came to a number past the words. -/
  | overflow (operation : String)
deriving DecidableEq, Repr

namespace Failure

/-- The text a caller is shown. -/
def message : Failure → String
  | outOfBounds index length =>
    s!"index {index} is out of bounds for collection of length {length}"
  | emptyCollection operation =>
    s!"{operation} called on an empty collection"
  | draftClosed draft =>
    s!"{draft} used after persistent() was called"
  | badSubscript collection index length =>
    s!"index {index} is out of bounds for {collection} of length {length}"
  | brokenInvariant => "invariant violation"
  | overflow operation => s!"attempt to {operation} with overflow"

/-- An edit of a tree that found the shape it relies on, or not. -/
def ofShape {α : Type} : Option α → Except Failure α
  | some result => .ok result
  | none => .error brokenInvariant

end Failure

-- ============================================================== words

/-- How many numbers a machine word can stand for. -/
abbrev wordSize : Nat := 1 <<< 64

/-- A number that an operation came to, if a word holds it. -/
def inWord (operation : String) (number : Nat) : Except Failure Nat :=
  if number < wordSize then
    .ok number
  else
    .error (.overflow operation)

-- ========================================================== instances

/-- The number of an edit. -/
abbrev Stamp := Nat

/-- A value and the edit that made it. -/
structure Stamped (α : Type) where
  stamp : Stamp
  value : α

/-- Whether two places hold the same instance. Two empty places do. -/
def Stamped.same {α β : Type} :
    Option (Stamped α) → Option (Stamped β) → Bool
  | some left, some right => left.stamp == right.stamp
  | none, none => true
  | _, _ => false

end PersistentCollections
