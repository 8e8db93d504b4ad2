import ByteLayout.Text.Unassigned

/-! # Quoted text

A text stands between single quotes, or between double quotes when it holds a single quote and no
double quote. Inside, the delimiter and the backslash are escaped, line breaks and tabulators have
short escapes, and every other invisible character is written by its number in base sixteen. These
are control characters, format characters, private-use characters, every blank other than the
ordinary space, and code points without a character. -/

namespace ByteLayout.Text

/-- The single quote. -/
def singleQuote : Char := Char.ofNat 39

/-- The double quote. -/
def doubleQuote : Char := Char.ofNat 34

/-- Inclusive ranges of code points whose character leaves no mark, in increasing order. -/
def invisibleRanges : List (Nat × Nat) :=
  [(0x00, 0x1f), (0x7f, 0xa0), (0xad, 0xad), (0x600, 0x605), (0x61c, 0x61c), (0x6dd, 0x6dd),
   (0x70f, 0x70f), (0x890, 0x891), (0x8e2, 0x8e2), (0x1680, 0x1680), (0x180e, 0x180e),
   (0x2000, 0x200f), (0x2028, 0x202f), (0x205f, 0x2064), (0x2066, 0x206f), (0x3000, 0x3000),
   (0xe000, 0xf8ff), (0xfeff, 0xfeff), (0xfff9, 0xfffb), (0x110bd, 0x110bd), (0x110cd, 0x110cd),
   (0x13430, 0x13438), (0x1bca0, 0x1bca3), (0x1d173, 0x1d17a), (0xe0001, 0xe0001),
   (0xe0020, 0xe007f), (0xf0000, 0xffffd), (0x100000, 0x10fffd)]

/-- Whether a code point lies in one of the given ranges. -/
def isWithin (ranges : List (Nat × Nat)) (n : Nat) : Bool :=
  ranges.any fun range => range.1 ≤ n && n ≤ range.2

/-- Whether a character leaves no mark when it is written as it is. -/
def isInvisible (c : Char) : Bool :=
  isWithin invisibleRanges c.toNat || isWithin unassignedRanges c.toNat

/-- A number in base sixteen, filled up with zeros to at least `width` digits. -/
def hexDigits (width n : Nat) : List Char :=
  let digits := Nat.toDigits 16 n
  List.replicate (width - digits.length) '0' ++ digits

/-- The escape of a character by its number, in the shortest of the three forms that hold it. -/
def numberEscape (c : Char) : List Char :=
  let n := c.toNat
  if n < 0x100 then '\\' :: 'x' :: hexDigits 2 n
  else if n < 0x10000 then '\\' :: 'u' :: hexDigits 4 n
  else '\\' :: 'U' :: hexDigits 8 n

/-- One character as it stands inside a text delimited by `delimiter`. -/
def quoteChar (delimiter c : Char) : List Char :=
  if c = delimiter || c = '\\' then ['\\', c]
  else if c = '\n' then ['\\', 'n']
  else if c = '\t' then ['\\', 't']
  else if c = '\r' then ['\\', 'r']
  else if isInvisible c then numberEscape c
  else [c]

/-- The delimiter of a quoted text. -/
def delimiterOf (cs : List Char) : Char :=
  if cs.contains singleQuote && !cs.contains doubleQuote then doubleQuote else singleQuote

/-- The quoted form of a text. -/
def quote (s : String) : String :=
  let cs := s.toList
  let delimiter := delimiterOf cs
  String.ofList (delimiter :: cs.flatMap (quoteChar delimiter) ++ [delimiter])

end ByteLayout.Text
