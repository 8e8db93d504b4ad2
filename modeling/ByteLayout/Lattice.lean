import ByteLayout.Tree.Merge

/-! # Lattices of knowledge

The operations that an iteration to a fixed point needs. A lattice has a least element and joins;
a greatest element and meets are optional. -/

namespace ByteLayout

/-- A lattice whose greatest element and meets may be missing. -/
structure Lattice (α : Type) where
  bottom : α
  join : α → α → α
  leq : α → α → Bool
  top? : Option α := none
  meet? : Option (α → α → α) := none

namespace Lattice

variable {α : Type}

/-- What a lattice may lack. -/
inductive Fault where
  | noTop
  | noMeet

/-- The wording of a fault. -/
def Fault.message : Fault → String
  | .noTop => "TypeTreeLattice has no finite top element"
  | .noMeet => "meet() not implemented for this lattice"

/-- The greatest element. -/
def top (l : Lattice α) : Except Fault α :=
  match l.top? with
  | some a => .ok a
  | none => .error .noTop

/-- The meet of two elements. -/
def meet (l : Lattice α) (a b : α) : Except Fault α :=
  match l.meet? with
  | some f => .ok (f a b)
  | none => .error .noMeet

/-- The join of many elements. -/
def joinAll (l : Lattice α) (xs : List α) : α := xs.foldl l.join l.bottom

end Lattice

namespace Tree

/-- The joins of trees alone. -/
def joins (policy : Policy) : Lattice Tree where
  bottom := empty
  join := merge policy
  leq := leq policy

/-- The lattice of trees. It has no greatest element, which would have to store every path. -/
def lattice (policy : Policy) : Lattice Tree := { joins policy with meet? := some meet }

end Tree

end ByteLayout
