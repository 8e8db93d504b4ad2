import ByteLayout.Path.Checked
import ByteLayout.Tree.Merge

/-! # Moving trees to another root

Going through a pointer, taking the value out of memory, putting a value into memory, and moving an
object by some bytes all change the first hops of a tree. Entries that come to stand at the same
path are joined. -/

namespace ByteLayout

/-- How many bytes a window spans. -/
inductive Extent where
  | unbounded
  | bytes (size : Int)
  deriving DecidableEq, Repr, Inhabited

namespace Extent

/-- The extent that a number stands for; minus one stands for no bound. -/
def ofInt (n : Int) : Extent := if n = -1 then .unbounded else .bytes n

/-- Whether a window of this extent reaches a distance from its start. -/
def reaches (extent : Extent) (distance : Int) : Bool :=
  match extent with
  | .unbounded => true
  | .bytes size => distance < size

end Extent

namespace Path

/-- Where the bytes of a path lie in the pointee of a value, counted from byte `base` on. Paths that
do not enter the pointee, or enter it before `base`, have no place there. -/
def inPointee? (base : Nat) (p : Path) : Option Path :=
  match p.first, p.rest with
  | .any, .any :: rest | .byte 0, .any :: rest => some ⟨.any, rest⟩
  | .any, .byte k :: rest | .byte 0, .byte k :: rest =>
    if k < base then none else some ⟨.byte (k - base), rest⟩
  | _, _ => none

/-- Where a path comes to stand when the bytes of a window that starts at `offset` are moved to
`target`. A wildcard stays one when the window has no bound, and lands on `target` otherwise. -/
def inWindow? (offset : Int) (extent : Extent) (target : Int) (p : Path) :
    Except Fault (Option Path) :=
  match p.first with
  | .any =>
    match extent with
    | .unbounded => .ok (some p)
    | .bytes _ => return some (← withFirst target p.rest)
  | .byte n =>
    if n < offset || !extent.reaches (n - offset) then .ok none
    else return some (← withFirst (n - offset + target) p.rest)

/-- The path whose first hop lies `n` bytes further on; a wildcard stays as it is. -/
def advance (n : Nat) (p : Path) : Path :=
  match p.first with
  | .any => p
  | .byte k => ⟨.byte (k + n), p.rest⟩

end Path

namespace Tree

/-- The ways in which moving a tree fails. -/
inductive Fault where
  | path (fault : Path.Fault)
  | loadSize (size : Int)

/-- The wording of a fault. -/
def Fault.message : Fault → String
  | .path fault => fault.message
  | .loadSize size => s!"load size must be positive, got {size}"

/-- The tree whose entries are those of `t`, moved by `move` and joined where they meet. -/
def moved (move : Path → Option Path) (t : Tree) : Tree :=
  ofEntries .distinct (t.entries.filterMap fun e => (move e.1).map fun p => (p, e.2))

/-- The memory tree of what a value points to, from byte `base` on. -/
def pointee (base : Nat) (t : Tree) : Tree := t.moved (Path.inPointee? base)

/-- The memory tree of what a value points to, from a byte that must not be negative. -/
def pointeeFrom (base : Int) (t : Tree) : Except Path.Fault Tree :=
  if base < 0 then .error (.negativeBase base) else .ok (t.pointee base.toNat)

/-- The tree with one more hop before every path. -/
def under (hop : Hop) (t : Tree) : Tree :=
  ⟨.ofList (t.entries.map fun e => (⟨hop, e.1.hops⟩, e.2))⟩

/-- The tree with one more hop, given by its number, before every path. The number is looked at
only when there is an entry. -/
def underOffset (n : Int) (t : Tree) : Except Path.Fault Tree :=
  match Hop.ofInt? n, t.entries with
  | some hop, _ => .ok (t.under hop)
  | none, [] => .ok empty
  | none, e :: _ => .error (.belowWildcard n (.int n :: Path.data e.1.hops))

/-- The entries whose first hop lies in the window that starts at `offset`, moved to `target`. -/
def window (offset : Int) (extent : Extent) (target : Int) (t : Tree) :
    Except Path.Fault Tree := do
  let places ← t.entries.mapM fun e => do
    let place ← e.1.inWindow? offset extent target
    return place.map fun p => (p, e.2)
  return ofEntries .distinct (places.filterMap id)

/-- The memory tree in which everything lies `n` bytes further on. -/
def advanced (n : Nat) (t : Tree) : Tree := t.moved fun p => some (p.advance n)

/-- Whether the first hop of a path is the wildcard or lies among the first `size` bytes. -/
def startsWithin (size : Nat) (p : Path) : Bool :=
  match p.first with
  | .any => true
  | .byte n => n < size

/-- The path with the wildcard in place of a first hop at byte zero. -/
def asWhole (p : Path) : Path := if p.first = .byte 0 then ⟨.any, p.rest⟩ else p

/-- Whether byte zero is the only concrete first hop. -/
def isWholeObject (m : OrderedMap Path Tag) : Bool :=
  m.entries.any (fun e => e.1.first = .byte 0) &&
    m.entries.all fun e => e.1.first = .any || e.1.first = .byte 0

/-- The value tree of a load of `size` bytes from the start of a memory tree. When all of it is one
object at byte zero, the value is that object. -/
def read (size : Nat) (t : Tree) : Tree :=
  let kept := t.map.filter fun p _ => startsWithin size p
  if isWholeObject kept then
    ofEntries .distinct (kept.entries.map fun e => (asWhole e.1, e.2))
  else normalize .distinct kept

/-- The value tree of a load whose size must be positive. -/
def readBytes (size : Int) (t : Tree) : Except Fault Tree :=
  if size ≤ 0 then .error (.loadSize size) else .ok (t.read size.toNat)

/-- The path with byte zero in place of a wildcard as first hop. -/
def asMemory (p : Path) : Path := if p.first = .any then ⟨.byte 0, p.rest⟩ else p

/-- The memory tree of the bytes that hold a value. -/
def toMemory (t : Tree) : Tree := t.moved fun p => some (asMemory p)

end Tree

end ByteLayout
