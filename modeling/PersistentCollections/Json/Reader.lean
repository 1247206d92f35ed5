/-
Reading collections from JSON, from left to right.

The type that is wanted directs the reading: a reader for the elements
makes a reader for sequences, and readers for keys and values make one
for sorted maps. The first failure ends the reading. A sequence or a
map that meets the beginning of another kind of value says so, as soon
as that value is read (a number, a string or a word in full, a bracket
by itself); every other failure is a malformed text, a value of the
wrong kind at the bottom included.
-/
import PersistentCollections.Json.Magnitude
import PersistentCollections.Sequence.Basic
import PersistentCollections.SortedMap.Basic

namespace PersistentCollections.Json

/-- Why a text could not be read. -/
inductive ReadError where
  /-- The text is malformed, or a value at the bottom is not of the
  kind wanted. -/
  | malformed
  /-- A sequence met another kind of value. -/
  | expectedSequence
  /-- A map met another kind of value. -/
  | expectedMap
deriving DecidableEq, Repr

/-- The text a caller is shown; a malformed text has none. -/
def ReadError.message : ReadError → String
  | malformed => ""
  | expectedSequence => "expected a sequence"
  | expectedMap => "expected a map"

/-- Reads a value off the front of some characters. -/
abbrev Reader (α : Type) :=
  List Char → Except ReadError (α × List Char)

/-- What a scanner has read, where `none` is a malformed text. -/
def scanned {α : Type} : Option α → Except ReadError α
  | some value => .ok value
  | none => .error .malformed

-- ====================================================== at the bottom

/-- An integer of 64 bits with a sign. -/
def integerHere : Reader Int := fun chars => do
  let (numeral, rest) ← scanned (numeral? chars)
  let value ← scanned numeral.int?
  let bound := Int.ofNat (1 <<< 63)
  if -bound ≤ value ∧ value < bound then
    return (value, rest)
  else
    throw .malformed

/-- An integer after blanks. -/
def integer : Reader Int := fun chars => integerHere (skipBlanks chars)

/-- A string after blanks. -/
def text : Reader String := fun chars =>
  match skipBlanks chars with
  | '"' :: rest => scanned (string? rest)
  | _ => .error .malformed

/-- An integer between quotes, with nothing else there. -/
def integerKey : Reader Int := fun chars =>
  match chars with
  | '"' :: rest => do
    match ← integerHere rest with
    | (value, '"' :: rest) => return (value, rest)
    | _ => throw .malformed
  | _ => .error .malformed

/-- What a value of another kind than the one wanted ends in: the given
error, if that value can be read as far as its kind goes. -/
def otherKind (wanted : ReadError) (chars : List Char) : ReadError :=
  let after {α : Type} : Option α → ReadError
    | some _ => wanted
    | none => .malformed
  match chars with
  | [] => .malformed
  | c :: rest =>
    if c == '[' || c == '\x7b' then wanted
    else if c == '"' then after (string? rest)
    else if c == 'n' then after (word? "null" chars)
    else if c == 't' then after (word? "true" chars)
    else if c == 'f' then after (word? "false" chars)
    else if c == '-' || c.isDigit then
      match numeral? chars with
      | some (numeral, _) =>
        if numeral.inRange then wanted else .malformed
      | none => .malformed
    else .malformed

-- ======================================================= collections

/-- What separates the items of a collection: whether one more follows,
and the characters from it on, or after the closing bracket. A comma
has to be followed by an item. -/
def separator (close : Char) (atStart : Bool) (chars : List Char) :
    Except ReadError (Bool × List Char) :=
  match skipBlanks chars with
  | [] => .error .malformed
  | c :: rest =>
    if c == close then
      .ok (false, rest)
    else if atStart then
      .ok (true, c :: rest)
    else if c == ',' then
      match skipBlanks rest with
      | [] => .error .malformed
      | d :: rest =>
        if d == close then .error .malformed else .ok (true, d :: rest)
    else
      .error .malformed

/-- The items of a collection up to its closing bracket, at most `bound`
of them, folded into a state one by one. -/
def foldItems {σ α : Type} (close : Char) (item : Reader α)
    (add : σ → α → Except ReadError σ) :
    Nat → Bool → σ → Reader σ
  | 0, _, _, _ => .error .malformed
  | bound + 1, atStart, state, chars => do
    match ← separator close atStart chars with
    | (false, rest) => return (state, rest)
    | (true, rest) =>
      let (value, rest) ← item rest
      foldItems close item add bound false (← add state value) rest

/-- A sequence of what `item` reads. -/
def sequence {α : Type} (item : Reader α) : Reader (Sequence α) :=
  fun chars =>
    match skipBlanks chars with
    | '[' :: rest =>
      foldItems ']' item
        (fun seq value => scanned (seq.push value).toOption)
        (rest.length + 1) true Sequence.empty rest
    | other => .error (otherKind .expectedSequence other)

/-- An entry of a map: a key, a colon and a value. -/
def entry {κ ν : Type} (key : Reader κ) (value : Reader ν) :
    Reader (κ × ν) := fun chars => do
  let (k, rest) ← key chars
  match skipBlanks rest with
  | ':' :: rest =>
    let (v, rest) ← value rest
    return ((k, v), rest)
  | _ => throw .malformed

/-- A sorted map of what `key` and `value` read; of keys that are the
same for it the first is kept, and the last value. -/
def sortedMap {κ ν : Type} {cmp : κ → κ → Ordering} (stamp : Stamp)
    (key : Reader κ) (value : Reader ν) : Reader (SortedMap κ ν cmp) :=
  fun chars =>
    match skipBlanks chars with
    | '\x7b' :: rest =>
      foldItems '\x7d' (entry key value)
        (fun map (k, v) => .ok (map.put stamp k v))
        (rest.length + 1) true SortedMap.empty rest
    | other => .error (otherKind .expectedMap other)

/-- A whole text: a value with nothing but blanks around it. -/
def document {α : Type} (reader : Reader α) (text : String) :
    Except ReadError α := do
  let (value, rest) ← reader text.toList
  if (skipBlanks rest).isEmpty then
    return value
  else
    throw .malformed

end PersistentCollections.Json
