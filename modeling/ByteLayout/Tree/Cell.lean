import ByteLayout.Path.Checked
import ByteLayout.Tree.Merge

/-! # Trees that are filled step by step

A cell holds a tree that grows by joins until the cell is frozen. From then on its tree is fixed and
can be used as a key. -/

namespace ByteLayout

/-- A tree that can be filled until it is frozen. -/
structure Cell where
  tree : Tree
  frozen : Bool := false
  deriving Inhabited

namespace Cell

/-- The ways in which a cell refuses a step. -/
inductive Fault where
  | frozen
  | notFrozen
  | path (fault : Path.Fault)

/-- The wording of a fault. -/
def Fault.message : Fault → String
  | .frozen => "TypeTree is frozen and cannot be modified"
  | .notFrozen => "unhashable: TypeTree is mutable until frozen"
  | .path fault => fault.message

/-- Fixes the tree of a cell. -/
def freeze (c : Cell) : Cell := { c with frozen := true }

/-- Joins a tree into a cell. Tells whether anything was added; if not, the old tree stays. -/
def mergeIn (policy : Policy) (c : Cell) (other : Tree) : Except Fault (Bool × Cell) :=
  if c.frozen then .error .frozen
  else
    let merged := c.tree.merge policy other
    if merged == c.tree then .ok (false, c) else .ok (true, { c with tree := merged })

/-- Joins one entry, whose path is unchecked, into a cell. -/
def insert (policy : Policy) (c : Cell) (hops : List Datum) (tag : Tag) :
    Except Fault (Bool × Cell) :=
  if c.frozen then .error .frozen
  else
    match Path.ofData hops with
    | .error fault => .error (.path fault)
    | .ok p => c.mergeIn policy (Tree.ofEntries .distinct [(p, tag)])

/-- Whether two cells are the same key. Only frozen cells are keys. -/
def sameKey (a b : Cell) : Except Fault Bool :=
  if a.frozen && b.frozen then .ok (a.tree == b.tree) else .error .notFrozen

/-- The text of a cell in reports. -/
def describe (c : Cell) : String :=
  "TypeTree(" ++ c.tree.render ++ (if c.frozen then ", frozen" else "") ++ ")"

end Cell

end ByteLayout
