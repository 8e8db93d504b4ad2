/-! # Matching with a record of the failure to report

A matcher reads a part of a text from a cursor on, or fails and leaves the cursor where it was. Along
the way a record is kept of the failure that a report would name. A failure of a named part
replaces an earlier one that does not lie further on; the failure of a single character is kept only
if it is the very first one. -/

namespace ByteLayout.TreeText

/-- The named parts of a written tree. -/
inductive Part where
  | tree
  | entries
  | entry
  | path
  | hops
  | int
  | tag
  | precision
  | name
  deriving DecidableEq, Repr, Inhabited

/-- The name of a part in reports. -/
def Part.label : Part → String
  | .tree => "tree"
  | .entries => "entries"
  | .entry => "entry"
  | .path => "path"
  | .hops => "hops"
  | .int => "int"
  | .tag => "tag"
  | .precision => "precision"
  | .name => "name"

/-- What was looked for and not found. -/
inductive Expectation where
  | part (p : Part)
  | literal (c : Char)
  deriving DecidableEq, Repr, Inhabited

/-- The wording of an expectation. -/
def Expectation.label : Expectation → String
  | .part p => "'" ++ p.label ++ "'"
  | .literal c => "<Literal '" ++ String.ofList [c] ++ "'>"

/-- A place in a text: how many characters lie before it, and those that follow. -/
structure Cursor where
  pos : Nat
  rest : List Char
  deriving DecidableEq, Repr, Inhabited

/-- The place `n` characters further on. -/
def Cursor.advance (c : Cursor) (n : Nat) : Cursor := ⟨c.pos + n, c.rest.drop n⟩

/-- The failure to report, with the place where what was looked for would have started. -/
structure Miss where
  pos : Nat
  expected : Expectation
  deriving DecidableEq, Repr, Inhabited

/-- The failure recorded so far. -/
abbrev Record := Option Miss

namespace Record

/-- Records that a part does not start at a place, unless an earlier failure lies further on. -/
def notePart (record : Record) (part : Part) (pos : Nat) : Record :=
  match record with
  | none => some ⟨pos, .part part⟩
  | some miss => if miss.pos ≤ pos then some ⟨pos, .part part⟩ else some miss

/-- Records that a character is not found at a place, if nothing is recorded yet. -/
def noteLiteral (record : Record) (c : Char) (pos : Nat) : Record :=
  match record with
  | none => some ⟨pos, .literal c⟩
  | some miss => some miss

end Record

/-- Reads from a cursor on, or fails; either way the record may change. -/
def Matcher (α : Type) : Type := Cursor → Record → Option (α × Cursor) × Record

namespace Matcher

variable {α β : Type}

/-- Reads nothing. -/
def give (a : α) : Matcher α := fun cursor record => (some (a, cursor), record)

/-- Reads one thing and then, from there on, what the first one asks for. -/
def andThen (m : Matcher α) (next : α → Matcher β) : Matcher β := fun cursor record =>
  match m cursor record with
  | (some (a, cursor'), record') => next a cursor' record'
  | (none, record') => (none, record')

instance : Monad Matcher where
  pure := give
  bind := andThen

/-- The number of characters before the cursor. -/
def position : Matcher Nat := fun cursor record => (some (cursor.pos, cursor), record)

/-- Reads one given character. -/
def literal (c : Char) : Matcher Unit := fun cursor record =>
  if cursor.rest.head? = some c then (some ((), cursor.advance 1), record)
  else (none, record.noteLiteral c cursor.pos)

/-- Reads the longest run of characters of a class, which may be empty. -/
def run (keep : Char → Bool) : Matcher (List Char) := fun cursor record =>
  let found := cursor.rest.takeWhile keep
  (some (found, cursor.advance found.length), record)

/-- Reads what `read?` makes of the text from the cursor on, with the number of characters read. -/
def lexeme (read? : List Char → Option (α × Nat)) : Matcher α := fun cursor record =>
  match read? cursor.rest with
  | some (a, n) => (some (a, cursor.advance n), record)
  | none => (none, record)

/-- Reads a named part. A failure is recorded under its name. -/
def part (p : Part) (m : Matcher α) : Matcher α := fun cursor record =>
  match m cursor record with
  | (some found, record') => (some found, record')
  | (none, record') => (none, record'.notePart p cursor.pos)

/-- Reads something or nothing. At the end of the text it is not tried. -/
def optional (m : Matcher α) : Matcher (Option α) := fun cursor record =>
  if cursor.rest.isEmpty then (some (none, cursor), record)
  else
    match m cursor record with
    | (some (a, cursor'), record') => (some (some a, cursor'), record')
    | (none, record') => (some (none, cursor), record')

/-- Reads something at most `n` times, as often as it is found and moves the cursor. At the end of
the text it is not tried. -/
def atMost : Nat → Matcher α → Matcher (List α)
  | 0, _ => give []
  | n + 1, m => fun cursor record =>
    if cursor.rest.isEmpty then (some ([], cursor), record)
    else
      match m cursor record with
      | (none, record') => (some ([], cursor), record')
      | (some (a, cursor'), record') =>
        if cursor'.pos = cursor.pos then (some ([a], cursor'), record')
        else (atMost n m).andThen (fun more => give (a :: more)) cursor' record'

/-- Reads something as often as it is found. No text holds it more often than it has characters. -/
def many (m : Matcher α) : Matcher (List α) := fun cursor record =>
  atMost cursor.rest.length m cursor record

end Matcher

end ByteLayout.TreeText
