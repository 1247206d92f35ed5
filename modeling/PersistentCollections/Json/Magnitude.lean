/-
Whether a number is small enough for a double.

The number is measured by its leading digits: as many as make a word of
64 bits, rounded to a double, times a power of ten, which is rounded to
a double as well. The digits after them do not count, those of the
whole part only as places. So the measure of a number close to the
largest double may lie on the other side of it than the number itself,
and the measure decides.
-/
import PersistentCollections.Json.Scan

namespace PersistentCollections.Json

/-- The number of so many significant bits that is nearest to `n`; of
two, the one whose last bit is zero. -/
def roundToBits (bits n : Nat) : Nat :=
  let unit := 1 <<< (n.log2 + 1 - bits)
  let kept := n / unit
  let rest := n % unit
  if unit < 2 * rest || (unit == 2 * rest && kept % 2 == 1) then
    (kept + 1) * unit
  else
    kept * unit

/-- The significant bits of a double. -/
abbrev doubleBits : Nat := 53

/-- The largest power of ten that is a double. -/
abbrev mostTens : Nat := 308

/-- The first number that is too large for a double, half way from the
largest double to the next power of two. -/
def tooLarge : Nat := (1 <<< 1024) - (1 <<< 970)

/-- Appends digits to a number while 64 bits hold it; the number, and
the digits from the first on that did not fit. -/
def appendDigits (word : Nat) : List Char → Nat × List Char
  | [] => (word, [])
  | digit :: rest =>
    let longer := 10 * word + digitValue digit
    if longer < 1 <<< 64 then
      appendDigits longer rest
    else
      (word, digit :: rest)

namespace Numeral

/-- The exponent as it is written; none counts as zero. -/
def writtenExponent (numeral : Numeral) : Int :=
  match numeral.exponent with
  | none => 0
  | some (negative, digits) =>
    if negative then -(digitsValue digits : Int) else digitsValue digits

/-- The leading digits as a number, and the power of ten to take it by.
Each part gives the digits that fit; the whole part counts those that
do not as places. -/
def leading (numeral : Numeral) : Nat × Int :=
  let fraction := numeral.fraction.getD []
  let (word, places) := appendDigits 0 numeral.whole
  let (word, unread) := appendDigits word fraction
  (word, numeral.writtenExponent + places.length
    - (fraction.length - unread.length : Nat))

/-- Whether a numeral is measured to lie within the doubles. -/
def inRange (numeral : Numeral) : Bool :=
  let (word, tens) := numeral.leading
  word == 0 || tens < 0
    || (tens ≤ mostTens
      && roundToBits doubleBits word
        * roundToBits doubleBits (Nat.pow 10 tens.toNat) < tooLarge)

end Numeral

end PersistentCollections.Json
