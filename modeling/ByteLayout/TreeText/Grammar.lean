import ByteLayout.TreeText.Matcher

/-! # The parts of a written tree

A tree is written as its entries between braces, with commas between them. An entry is a path, a
colon and a tag. A path is a list of integers between brackets, and a tag is a name that may be
followed by `@` and the name of a precision. Blanks may stand between all of these, but not inside a
tag or an integer. -/

namespace ByteLayout.TreeText

/-- The opening brace. -/
def openBrace : Char := Char.ofNat 0x7b

/-- The closing brace. -/
def closeBrace : Char := Char.ofNat 0x7d

/-- Inclusive ranges of blank code points, in increasing order. -/
def blankRanges : List (Nat × Nat) :=
  [(0x09, 0x0d), (0x20, 0x20), (0x85, 0x85), (0xa0, 0xa0), (0x1680, 0x1680), (0x2000, 0x200a),
   (0x2028, 0x2029), (0x202f, 0x202f), (0x205f, 0x205f), (0x3000, 0x3000)]

/-- Whether a character may stand between the parts of a written tree. -/
def isBlank (c : Char) : Bool :=
  blankRanges.any fun range => range.1 ≤ c.toNat && c.toNat ≤ range.2

/-- An entry as it is written. Its path starts where the entry starts. -/
structure WrittenEntry where
  start : Nat
  hops : List Int
  tagStart : Nat
  tag : String
  deriving DecidableEq, Repr, Inhabited

/-- Whether a character is a decimal digit. -/
def isDigit (c : Char) : Bool := '0' ≤ c && c ≤ '9'

/-- Whether a character can start a name. -/
def isNameStart (c : Char) : Bool := ('A' ≤ c && c ≤ 'Z') || ('a' ≤ c && c ≤ 'z') || c = '_'

/-- Whether a character can go on with a name. -/
def isNameChar (c : Char) : Bool := isNameStart c || isDigit c

/-- The number that decimal digits stand for. -/
def digitsValue (ds : List Char) : Nat := ds.foldl (fun n d => 10 * n + (d.toNat - 48)) 0

/-- The digits at the start of a text and the number they stand for, with their count. -/
def readDigits (cs : List Char) : Option (Nat × Nat) :=
  let ds := cs.takeWhile isDigit
  if ds.isEmpty then none else some (digitsValue ds, ds.length)

/-- The integer at the start of a text, with the number of its characters. -/
def readInt : List Char → Option (Int × Nat)
  | '-' :: cs => (readDigits cs).map fun (n, length) => (-n, length + 1)
  | '+' :: cs => (readDigits cs).map fun (n, length) => (n, length + 1)
  | cs => (readDigits cs).map fun (n, length) => (n, length)

/-- The name at the start of a text, with the number of its characters. -/
def readName : List Char → Option (List Char × Nat)
  | c :: cs =>
    if isNameStart c then
      let name := c :: cs.takeWhile isNameChar
      some (name, name.length)
    else none
  | [] => none

/-- Blanks, if there are any. -/
def blanks : Matcher Unit := do
  let _ ← Matcher.run isBlank

/-- A character with blanks around it. -/
def separator (c : Char) : Matcher Unit := do
  blanks
  Matcher.literal c
  blanks

/-- An integer: an optional sign and decimal digits. -/
def int : Matcher Int := Matcher.part .int (Matcher.lexeme readInt)

/-- The hops of a path: integers with commas between them. -/
def hops : Matcher (List Int) := Matcher.part .hops do
  let first ← int
  let more ← Matcher.many do
    separator ','
    int
  return first :: more

/-- A path: hops between brackets. That there are none is noticed later. -/
def path : Matcher (List Int) := Matcher.part .path do
  Matcher.literal '['
  blanks
  let found ← Matcher.optional hops
  blanks
  Matcher.literal ']'
  return found.getD []

/-- A name: letters, digits and underscores, not starting with a digit. -/
def name : Matcher (List Char) := Matcher.part .name (Matcher.lexeme readName)

/-- The precision of a tag. -/
def precision : Matcher (List Char) := Matcher.part .precision do
  Matcher.literal '@'
  let sub ← name
  return '@' :: sub

/-- A tag, as the text that it is written with. -/
def tag : Matcher String := Matcher.part .tag do
  let kind ← name
  let sub ← Matcher.optional precision
  return String.ofList (kind ++ sub.getD [])

/-- An entry: a path, a colon and a tag. -/
def entry : Matcher WrittenEntry := Matcher.part .entry do
  let start ← Matcher.position
  let found ← path
  separator ':'
  let tagStart ← Matcher.position
  let text ← tag
  return ⟨start, found, tagStart, text⟩

/-- Entries with commas between them. -/
def entries : Matcher (List WrittenEntry) := Matcher.part .entries do
  let first ← entry
  let more ← Matcher.many do
    separator ','
    entry
  return first :: more

/-- A tree: entries between braces. -/
def tree : Matcher (List WrittenEntry) := Matcher.part .tree do
  separator openBrace
  let found ← Matcher.optional entries
  separator closeBrace
  return found.getD []

end ByteLayout.TreeText
