/-
The pieces of a JSON text: blanks, fixed words, strings and numbers.

Each scanner takes the characters that are left and answers what it has
read with the characters after it, or `none` if the text is malformed
there.
-/

namespace PersistentCollections.Json

/-- What a scanner answers: its result and the characters after it. -/
abbrev Scan (α : Type) := List Char → Option (α × List Char)

/-- The characters after blanks, line breaks and tabs. -/
def skipBlanks (chars : List Char) : List Char :=
  chars.dropWhile fun c => c == ' ' || c == '\n' || c == '\t' || c == '\r'

/-- The characters after a fixed word. -/
def word? (text : String) (chars : List Char) : Option (List Char) :=
  if text.toList.isPrefixOf chars then
    some (chars.drop text.length)
  else
    none

-- =========================================================== strings

/-- The value of a hexadecimal digit. -/
def hexValue? (c : Char) : Option Nat :=
  if c.isDigit then some (c.toNat - '0'.toNat)
  else if 'a' ≤ c ∧ c ≤ 'f' then some (c.toNat - 'a'.toNat + 10)
  else if 'A' ≤ c ∧ c ≤ 'F' then some (c.toNat - 'A'.toNat + 10)
  else none

/-- The number that four hexadecimal digits make. -/
def unit? : Scan Nat
  | a :: b :: c :: d :: rest => do
    let a ← hexValue? a
    let b ← hexValue? b
    let c ← hexValue? c
    let d ← hexValue? d
    return (((a * 16 + b) * 16 + c) * 16 + d, rest)
  | _ => none

/-- The character that an escape of one letter stands for. -/
def escaped? : Char → Option Char
  | '"' => some '"'
  | '\\' => some '\\'
  | '/' => some '/'
  | 'b' => some '\x08'
  | 'f' => some '\x0c'
  | 'n' => some '\n'
  | 'r' => some '\r'
  | 't' => some '\t'
  | _ => none

/-- The character after the `\u` of an escape: one number, or two for a
character beyond the basic plane. Half of such a pair alone is
malformed. -/
def escapedUnit? : Scan Char := fun chars => do
  let (high, rest) ← unit? chars
  if 0xd800 ≤ high && high < 0xdc00 then
    match rest with
    | '\\' :: 'u' :: rest =>
      let (low, rest) ← unit? rest
      if 0xdc00 ≤ low && low < 0xe000 then
        return (Char.ofNat
          (0x10000 + (high - 0xd800) * 0x400 + (low - 0xdc00)), rest)
      else
        none
    | _ => none
  else if 0xdc00 ≤ high && high < 0xe000 then
    none
  else
    return (Char.ofNat high, rest)

/-- The characters up to the closing quote, with `bound` characters to
read at most; those `taken` before come first, in reverse. -/
def stringFrom? : Nat → List Char → Scan String
  | 0, _, _ => none
  | _, _, [] => none
  | _ + 1, taken, '"' :: rest => some (String.ofList taken.reverse, rest)
  | bound + 1, taken, '\\' :: 'u' :: rest => do
    let (c, rest) ← escapedUnit? rest
    stringFrom? bound (c :: taken) rest
  | bound + 1, taken, '\\' :: letter :: rest => do
    stringFrom? bound ((← escaped? letter) :: taken) rest
  | bound + 1, taken, c :: rest =>
    if c == '\\' || c.toNat < 0x20 then
      none
    else
      stringFrom? bound (c :: taken) rest

/-- A string whose opening quote has been read. -/
def string? : Scan String := fun chars =>
  stringFrom? (chars.length + 1) [] chars

-- =========================================================== numbers

/-- A number as it is written: its sign, its digits up to the point,
and those after the point and the exponent if there are any. -/
structure Numeral where
  negative : Bool
  whole : List Char
  fraction : Option (List Char)
  exponent : Option (Bool × List Char)

/-- One digit or more. -/
def digits? : Scan (List Char) := fun chars =>
  match chars.takeWhile Char.isDigit with
  | [] => none
  | digits => some (digits, chars.dropWhile Char.isDigit)

/-- The digits before the point, of which only the first may be a zero
that stands alone. -/
def whole? : Scan (List Char)
  | '0' :: c :: rest => if c.isDigit then none else some (['0'], c :: rest)
  | chars => digits? chars

/-- The fraction of a number, if a point follows. -/
def fraction? : Scan (Option (List Char))
  | '.' :: rest => (digits? rest).map fun (ds, rest) => (some ds, rest)
  | chars => some (none, chars)

/-- The exponent of a number, if an `e` follows; true if negative. -/
def exponent? : Scan (Option (Bool × List Char))
  | c :: rest =>
    if c == 'e' || c == 'E' then
      let (negative, rest) :=
        match rest with
        | '+' :: rest => (false, rest)
        | '-' :: rest => (true, rest)
        | _ => (false, rest)
      (digits? rest).map fun (ds, rest) => (some (negative, ds), rest)
    else
      some (none, c :: rest)
  | [] => some (none, [])

/-- A number of any form. -/
def numeral? : Scan Numeral := fun chars => do
  let (negative, chars) :=
    match chars with
    | '-' :: rest => (true, rest)
    | _ => (false, chars)
  let (whole, chars) ← whole? chars
  let (fraction, chars) ← fraction? chars
  let (exponent, chars) ← exponent? chars
  return (⟨negative, whole, fraction, exponent⟩, chars)

/-- The value of a decimal digit. -/
def digitValue (c : Char) : Nat := c.toNat - '0'.toNat

/-- The number that decimal digits make. -/
def digitsValue (digits : List Char) : Nat :=
  digits.foldl (fun n c => 10 * n + digitValue c) 0

namespace Numeral

/-- The integer that a numeral without fraction and exponent stands
for. A zero with a sign is no integer. -/
def int? (numeral : Numeral) : Option Int :=
  match numeral.fraction, numeral.exponent with
  | none, none =>
    let value := digitsValue numeral.whole
    if numeral.negative then
      if value = 0 then none else some (-(value : Int))
    else
      some value
  | _, _ => none

end Numeral

end PersistentCollections.Json
