import ByteLayout.Log
import ByteLayout.Path.Checked
import ByteLayout.Tree.Merge
import ByteLayout.TreeText.Grammar

/-! # Reading trees

A text is read in three stages, and the first offence of the earliest stage is reported with its
position. First the text must have the form of a written tree. Then every path must be a path and
every tag a known one, judged from left to right. Last, no path may be listed twice and no entry may
lie behind a listed one that is a scalar or opaque. What is read is then exactly what is listed. An
integer may have any number of digits: a limit that a runtime sets on them is left out. -/

namespace ByteLayout.TreeText

/-- A message with the column that it speaks of, if there is one. -/
def located (position : Option Int) (message : String) : String :=
  match position with
  | some n => s!"column {n}: {message}"
  | none => message

/-- The place of an offence for a reader: what follows there, the line and the column in it. -/
structure Excerpt where
  text : String
  line : Nat
  column : Nat
  deriving DecidableEq, Repr, Inhabited

/-- What follows a position, up to twenty characters, and where it stands. -/
def excerptAt (cs : List Char) (pos : Nat) : Excerpt :=
  let before := cs.take pos
  { text := String.ofList ((cs.drop pos).take 20)
    line := 1 + before.count '\n'
    column := 1 + (before.reverse.takeWhile (· ≠ '\n')).length }

/-- Why a text is not a tree. -/
inductive Reason where
  | mismatch (expected : Expectation) (excerpt : Excerpt)
  | leftover (excerpt : Excerpt)
  | badPath (fault : Path.Fault)
  | badTag (fault : Tag.Fault)
  | bottomTag
  | duplicate (path : Path)
  | beneathLeaf (path : Path) (leaf : Tag) (ancestor : Path)

/-- Why and where a text is not a tree. -/
structure Fault where
  position : Nat
  reason : Reason

/-- The place of an excerpt in words. -/
def Excerpt.place (e : Excerpt) : String := s!"'{e.text}' (line {e.line}, column {e.column})."

/-- The report on a text that does not have the form of a written tree. -/
def Reason.report? : Reason → Option String
  | .mismatch expected excerpt =>
    some (s!"Rule {expected.label} didn't match at " ++ excerpt.place)
  | .leftover excerpt =>
    some ("Rule 'tree' matched in its entirety, but it didn't consume all the text. " ++
      "The non-matching portion of the text begins with " ++ excerpt.place)
  | _ => none

/-- The wording of a reason. -/
def Reason.message (r : Reason) : String :=
  match r with
  | .mismatch .. | .leftover _ => "malformed type tree: " ++ r.report?.getD ""
  | .badPath fault => fault.message
  | .badTag fault => fault.message
  | .bottomTag => "Bottom is never stored in a tree"
  | .duplicate path => s!"duplicate path {path.render}"
  | .beneathLeaf path leaf ancestor =>
    s!"{path.render} lies beneath the {leaf.render} leaf at {ancestor.render}"

/-- The wording of a fault. -/
def Fault.message (f : Fault) : String := located (some f.position) f.reason.message

/-- What is logged about a fault: only that a text has not the form of a tree. -/
def Fault.log (f : Fault) : List Log.Entry :=
  match f.reason.report? with
  | some report => [⟨.debug, "type tree text rejected: " ++ report⟩]
  | none => []

/-- The entries that a text lists, if it has the form of a written tree. -/
def scan (cs : List Char) : Except Fault (List WrittenEntry) :=
  match tree ⟨0, cs⟩ none with
  | (some (found, cursor), _) =>
    if cursor.rest.isEmpty then .ok found
    else .error ⟨cursor.pos, .leftover (excerptAt cs cursor.pos)⟩
  | (none, record) =>
    let miss := record.getD ⟨0, .part .tree⟩
    .error ⟨miss.pos, .mismatch miss.expected (excerptAt cs miss.pos)⟩

/-- An entry whose path and tag are sound. -/
structure ListedEntry where
  start : Nat
  path : Path
  tag : Tag
  deriving DecidableEq, Repr, Inhabited

/-- The entry that is meant by a written one: its path is judged before its tag. -/
def WrittenEntry.check (e : WrittenEntry) : Except Fault ListedEntry :=
  match Path.ofData (e.hops.map .int) with
  | .error fault => .error ⟨e.start, .badPath fault⟩
  | .ok path =>
    match Tag.parse e.tag with
    | .error fault => .error ⟨e.tagStart, .badTag fault⟩
    | .ok .bottom => .error ⟨e.tagStart, .bottomTag⟩
    | .ok tag => .ok ⟨e.start, path, tag⟩

/-- The first entry whose path is among those seen before it. -/
def firstRepeat? (seen : List Path) : List ListedEntry → Option ListedEntry
  | [] => none
  | e :: rest => if e.path ∈ seen then some e else firstRepeat? (e.path :: seen) rest

/-- Whether a tag allows no entries behind it. -/
def isLeaf (tag : Tag) : Bool := tag.isScalar || tag = .anything

/-- The listed entry nearest to the root that allows nothing behind it and yet has the path there. -/
def leafAbove? (es : List ListedEntry) (p : Path) : Option ListedEntry :=
  p.ancestors.findSome? fun q => es.find? fun e => e.path = q && isLeaf e.tag

/-- The first entry that lies behind a listed leaf, with that leaf. -/
def firstBeneath? (es : List ListedEntry) : Option (ListedEntry × ListedEntry) :=
  es.findSome? fun e => (leafAbove? es e.path).map fun leaf => (e, leaf)

/-- The tree of sound entries, if no two of them disturb each other. -/
def assemble (es : List ListedEntry) : Except Fault Tree :=
  match firstRepeat? [] es with
  | some e => .error ⟨e.start, .duplicate e.path⟩
  | none =>
    match firstBeneath? es with
    | some (e, leaf) => .error ⟨e.start, .beneathLeaf e.path leaf.tag leaf.path⟩
    | none => .ok (Tree.ofEntries .distinct (es.map fun e => (e.path, e.tag)))

/-- The tree that a text stands for. -/
def read (text : String) : Except Fault Tree := do
  let written ← scan text.toList
  let listed ← written.mapM WrittenEntry.check
  assemble listed

end ByteLayout.TreeText
