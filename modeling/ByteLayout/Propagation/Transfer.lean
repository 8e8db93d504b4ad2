import ByteLayout.Program.Instruction
import ByteLayout.Tree.Rerooting

/-! # Transfer rules

A rule says that the tree of its target is at least what it makes of the trees of its sources. The
functions here are those that instructions give rise to: reading through a pointer, writing through
one, and moving a pointer. -/

namespace ByteLayout

namespace Tree

/-- The value tree of a pointer to some memory. -/
def pointerTo (memory : Tree) : Tree := (scalar .pointer).merge .distinct (memory.under .any)

/-- What a load of `size` bytes through a pointer yields. -/
def loaded (size : Nat) (pointer : Tree) : Tree := (pointer.pointee 0).read size

/-- What is known about a pointer through which a value is loaded or stored. -/
def stored (value : Tree) : Tree := pointerTo value.toMemory

/-- What is known about a pointer that was moved on by `n` bytes. -/
def movedForward (n : Nat) (pointer : Tree) : Tree := pointerTo (pointer.pointee n)

/-- What is known about a pointer from the one that lies `n` bytes further on. -/
def movedBackward (n : Nat) (result : Tree) : Tree := pointerTo ((result.pointee 0).advanced n)

end Tree

/-- What a rule makes of the trees of its sources. -/
abbrev Transfer := List Tree → Except Tree.Fault Tree

namespace Transfer

/-- A transfer that looks at its one source. -/
def unary (f : Tree → Except Tree.Fault Tree) : Transfer
  | source :: _ => f source
  | [] => .ok .empty

/-- A transfer that looks at its one source and cannot fail. -/
def total (f : Tree → Tree) : Transfer := unary fun t => .ok (f t)

/-- The source itself. -/
def identity : Transfer := total id

/-- A register that holds one thing, whatever the sources are. -/
def constant (tag : Tag) : Transfer := fun _ => .ok (.scalar tag)

/-- The join of all sources. -/
def mergeAll : Transfer := fun sources => .ok (.mergeAll .distinct sources)

/-- A load of a size that must be positive. -/
def loadedBytes (size : Int) : Transfer :=
  unary fun pointer => (pointer.pointee 0).readBytes size

/-- A pointer moved on by a number of bytes that must not be negative. -/
def forward (n : Int) : Transfer := unary fun pointer =>
  match pointer.pointeeFrom n with
  | .ok memory => .ok (.pointerTo memory)
  | .error fault => .error (.path fault)

/-- A pointer from the one that lies some bytes further on. -/
def backward (n : Int) : Transfer := unary fun result =>
  match (result.pointee 0).window 0 .unbounded n with
  | .ok memory => .ok (.pointerTo memory)
  | .error fault => .error (.path fault)

end Transfer

/-- The tree of the target is at least what the rule makes of the trees of its sources. -/
structure Rule where
  target : ValueId
  sources : List ValueId
  apply : Transfer
  origin : Option Instruction := none
  deriving Inhabited

namespace Rule

/-- The text of a rule in reports. -/
def describe (r : Rule) : String :=
  let sources := ", ".intercalate r.sources
  let origin := match r.origin with
    | some i => s!" ({i.render})"
    | none => ""
  s!"{r.target} <- " ++ (if sources.isEmpty then "const" else sources) ++ origin

/-- Two rules that make two values the same. -/
def bothWays (a b : ValueId) (origin : Instruction) : List Rule :=
  [⟨a, [b], .identity, some origin⟩, ⟨b, [a], .identity, some origin⟩]

end Rule

end ByteLayout
