import ByteLayout.Tree.Basic

/-! # Joining trees

Trees are joined path by path and then brought back into form. An entry that has come to lie on the
way to another one must be able to hold an address, so a scalar there is joined with a pointer.
What lies behind a contradictory entry is opaque and is dropped. -/

namespace ByteLayout.Tree

/-- Joins a tag into what is stored at a path. The unknown tag adds nothing. -/
def addTag (policy : Policy) (m : OrderedMap Path Tag) (p : Path) (tag : Tag) :
    OrderedMap Path Tag :=
  if tag = .bottom then m else m.upsert p fun old => (old.getD .bottom).join policy tag

/-- Joins entries, one after the other, into a map. -/
def addAll (policy : Policy) (m : OrderedMap Path Tag) (es : List (Path × Tag)) :
    OrderedMap Path Tag :=
  es.foldl (fun m e => addTag policy m e.1 e.2) m

/-- The entries about which something is known. -/
def known (m : OrderedMap Path Tag) : OrderedMap Path Tag := m.filter fun _ tag => tag ≠ .bottom

/-- Whether a path lies on the way to a stored one. -/
def hasDescendant (m : OrderedMap Path Tag) (p : Path) : Bool :=
  m.entries.any fun e => p.isAncestorOf e.1

/-- Whether a path lies behind an opaque entry. -/
def isHidden (m : OrderedMap Path Tag) (p : Path) : Bool :=
  m.entries.any fun e => e.2 = .anything && e.1.isAncestorOf p

/-- Joins every scalar that lies on the way to another entry with a pointer. -/
def promote (policy : Policy) (m : OrderedMap Path Tag) : OrderedMap Path Tag :=
  m.map fun p tag => if tag.isScalar && hasDescendant m p then tag.join policy .pointer else tag

/-- The tree of a map of joined tags. -/
def normalize (policy : Policy) (m : OrderedMap Path Tag) : Tree :=
  let promoted := promote policy (known m)
  ⟨promoted.filter fun p _ => !isHidden promoted p⟩

/-- The tree of a list of entries; the tags of a repeated path are joined. -/
def ofEntries (policy : Policy) (es : List (Path × Tag)) : Tree :=
  normalize policy (addAll policy .empty es)

/-- The tree of a register that holds one thing. -/
def scalar (tag : Tag) : Tree := ofEntries .distinct [(.root, tag)]

/-- The join of two trees. -/
def merge (policy : Policy) (a b : Tree) : Tree :=
  normalize policy (addAll policy a.map b.entries)

/-- The join of many trees. -/
def mergeAll (policy : Policy) (ts : List Tree) : Tree := ts.foldl (merge policy) empty

/-- The meet of two trees: only what both know remains. -/
def meet (a b : Tree) : Tree := normalize .distinct (a.map.map fun p tag => tag.meet (b.tag p))

/-- The order of trees: `a` adds nothing to `b`. -/
def leq (policy : Policy) (a b : Tree) : Bool := merge policy a b == b

end ByteLayout.Tree
