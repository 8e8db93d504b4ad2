import ByteLayout.OrderedMap.Basic
import ByteLayout.Path.Basic
import ByteLayout.Tag

/-! # Trees

A tree tells, for finitely many paths, what is known about the bytes there. A path that is not
stored is unknown. Trees are compared path by path; the order in which their entries were stored
plays no part.

A value tree describes a register: its first hop is the wildcard. A memory tree describes the bytes
of an object: its first hops are byte offsets. -/

namespace ByteLayout

/-- What is known about the bytes that can be reached from one value. -/
structure Tree where
  map : OrderedMap Path Tag
  deriving Inhabited

namespace Tree

/-- The tree that knows nothing. -/
def empty : Tree := ⟨.empty⟩

/-- The stored entries, in order of their first insertion. -/
def entries (t : Tree) : List (Path × Tag) := t.map.entries

/-- The stored tag of a path. -/
def get? (t : Tree) (p : Path) : Option Tag := t.map.get? p

/-- The tag of a path, unknown when none is stored. -/
def tag (t : Tree) (p : Path) : Tag := (t.get? p).getD .bottom

/-- Whether a path is stored. -/
def contains (t : Tree) (p : Path) : Bool := t.map.contains p

/-- The number of stored paths. -/
def size (t : Tree) : Nat := t.map.size

/-- Whether nothing is stored. -/
def isEmpty (t : Tree) : Bool := t.map.isEmpty

/-- Two trees are equal when they store the same tags at the same paths. -/
instance : BEq Tree := ⟨fun a b => a.map == b.map⟩

/-- The stored entries in the order of their paths. -/
def sortedEntries (t : Tree) : List (Path × Tag) := t.entries.mergeSort fun a b => a.1.le b.1

/-- The stored paths in order. -/
def paths (t : Tree) : List Path := t.sortedEntries.map Prod.fst

/-- Whether no stored tag is contradictory. -/
def isDetermined (t : Tree) : Bool := t.entries.all fun e => e.2 ≠ .anything

/-- The greatest depth of a stored path, minus one for the empty tree. -/
def maxDepth (t : Tree) : Int := t.entries.foldl (fun m e => max m e.1.depth) (-1)

/-- The tag of a path when stored wildcards and opaque objects count: the tag stored there, or else
the join of the tags stored at patterns that the path fits, or else a contradiction if an object on
the way is opaque. -/
def lookup (t : Tree) (p : Path) : Tag :=
  match t.get? p with
  | some tag => tag
  | none =>
    let found := t.entries.foldl
      (fun found e => if p.fits e.1 then found.join .distinct e.2 else found) .bottom
    if found ≠ .bottom then found
    else if p.ancestors.any fun q => t.entries.any fun e => e.2 = .anything && q.fits e.1
    then .anything
    else .bottom

/-- The canonical text of a tree: its entries in the order of their paths. -/
def render (t : Tree) : String :=
  let entryTexts := t.sortedEntries.map fun e => e.1.render ++ ":" ++ e.2.render
  "\x7b" ++ ", ".intercalate entryTexts ++ "\x7d"

instance : ToString Tree := ⟨render⟩

/-- The form that every tree of the library has: the unknown tag is never stored, and whatever is
stored on the way to a stored path is a pointer. -/
structure WellFormed (t : Tree) : Prop where
  known : ∀ p, t.get? p ≠ some .bottom
  pointers : ∀ p q tag, p.isAncestorOf q = true → t.get? p = some tag → (t.get? q).isSome →
    tag = .pointer

end Tree

end ByteLayout
