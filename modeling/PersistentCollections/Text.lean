/-
How collections leave the program: written for a reader, written in
JSON, and listed for a serial format.

For a reader the parts stand between brackets, separated by a comma and
a blank: sequences in square brackets, maps and sets in curly ones, and
an entry of a map has a colon and a blank between its key and its value.
JSON has the compact form, without blanks.

Quoted text is a string between double quotes, with escapes for what
could not stand there as it is. For a reader, quotes, backslashes, line
breaks and tabs have escapes of one letter, as have the carriage return
and the null character, and other control characters are written by
their code in braces. In JSON the one-letter escapes also cover the
backspace and the form feed, and other control characters below the
blank are written with four hexadecimal digits. Everything else stands
for itself in both.

A serial format is told the number of items ahead of the items, so that
a reader can make room for them, and carries the items in order.
-/

namespace PersistentCollections

/-- The items of a collection in order, under their announced number. -/
structure Listing (α : Type) where
  /-- The number of items, as announced before the first. -/
  announced : Nat
  /-- The items in order. -/
  items : List α

namespace Text

-- ======================================================= for a reader

/-- The parts one after another, a comma and a blank between any two. -/
def separated (parts : List String) : String :=
  ", ".intercalate parts

/-- The parts of a sequence. -/
def bracketed (parts : List String) : String :=
  "[" ++ separated parts ++ "]"

/-- The parts of a map or a set. -/
def braced (parts : List String) : String :=
  "\x7b" ++ separated parts ++ "\x7d"

/-- An entry of a map. -/
def entry (key value : String) : String := key ++ ": " ++ value

-- ============================================================= quoted

/-- The hexadecimal digits of a number, in lower case. -/
def hexDigits (value : Nat) : List Char := Nat.toDigits 16 value

/-- Whether a character is one of the control characters. -/
def isControl (c : Char) : Bool :=
  c.toNat < 0x20 || (0x7f ≤ c.toNat && c.toNat < 0xa0)

/-- One character of a string shown to a reader. -/
def shownChar (c : Char) : List Char :=
  if c == '"' then ['\\', '"']
  else if c == '\\' then ['\\', '\\']
  else if c == '\n' then ['\\', 'n']
  else if c == '\t' then ['\\', 't']
  else if c == '\r' then ['\\', 'r']
  else if c.toNat == 0 then ['\\', '0']
  else if isControl c then
    ['\\', 'u', '\x7b'] ++ hexDigits c.toNat ++ ['\x7d']
  else [c]

/-- A string as it is shown to a reader. -/
def shown (text : String) : String :=
  String.ofList ('"' :: text.toList.flatMap shownChar ++ ['"'])

/-- One character of a string in JSON. -/
def jsonChar (c : Char) : List Char :=
  if c == '"' then ['\\', '"']
  else if c == '\\' then ['\\', '\\']
  else if c == '\n' then ['\\', 'n']
  else if c == '\t' then ['\\', 't']
  else if c == '\r' then ['\\', 'r']
  else if c.toNat == 8 then ['\\', 'b']
  else if c.toNat == 12 then ['\\', 'f']
  else if c.toNat < 0x20 then
    ['\\', 'u'] ++ (hexDigits c.toNat).leftpad 4 '0'
  else [c]

/-- A string in JSON. -/
def jsonString (text : String) : String :=
  String.ofList ('"' :: text.toList.flatMap jsonChar ++ ['"'])

end Text

namespace Json

-- =============================================================== JSON

/-- An array of written items. -/
def array (items : List String) : String :=
  "[" ++ ",".intercalate items ++ "]"

/-- An object of written keys, with their quotes, and written values. -/
def object (entries : List (String × String)) : String :=
  "\x7b"
    ++ ",".intercalate (entries.map fun (key, value) => key ++ ":" ++ value)
    ++ "\x7d"

end Json

end PersistentCollections
