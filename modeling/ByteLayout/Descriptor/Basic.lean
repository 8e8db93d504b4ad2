import ByteLayout.Datum
import ByteLayout.OrderedMap.Basic
import ByteLayout.Tag

/-! # Descriptors

A descriptor says how bytes are laid out: primitive bytes of one kind, fields at byte offsets, equal
elements one after the other, an address, or a layout that a registry knows by name. Names allow
layouts that contain an address of themselves. -/

namespace ByteLayout

/-- The layout of some bytes. -/
inductive Descriptor where
  /-- Primitive bytes of one kind, with their number if it does not follow from the kind. -/
  | scalar (tag : Tag) (size : Option Nat)
  /-- Fields at byte offsets. -/
  | struct (fields : List (Nat × Descriptor)) (name : Option String) (size : Option Int)
  /-- Elements that lie `stride` bytes apart. -/
  | array (element : Descriptor) (stride count : Nat)
  /-- An address of something. -/
  | pointer (pointee : Descriptor)
  /-- The layout of a given name. -/
  | ref (name : String)
  /-- Something that stands in the place of a layout and is none. -/
  | foreign (datum : Datum)
  deriving Inhabited

namespace Descriptor

/-- The ways in which a descriptor fails to describe a finite layout. -/
inductive Fault where
  | scalarSize (size : Int)
  | negativeOffset (offset : Int) (name : Option String)
  | negativeArray (stride count : Int)
  | unresolved (name : String)
  | containsItself (name : String) (opened : List String)
  | endlessSize (name : String)
  | unknown (datum : Datum)

/-- The name of a struct in messages. -/
def structLabel : Option String → String
  | none | some "" => "<anon>"
  | some name => name

/-- The wording of a fault. -/
def Fault.message : Fault → String
  | .scalarSize size => s!"scalar size must be positive, got {size}"
  | .negativeOffset offset name =>
    s!"field offset {offset} of struct {structLabel name} is negative"
  | .negativeArray stride count =>
    s!"array stride/count must be non-negative, got {stride}/{count}"
  | .unresolved name => s!"unresolved descriptor reference {Text.quote name}"
  | .containsItself name opened =>
    s!"descriptor {Text.quote name} contains itself without an intervening pointer (" ++
      " -> ".intercalate (opened ++ [name]) ++ ")"
  | .endlessSize name => s!"the size of {Text.quote name} depends on itself"
  | .unknown datum => s!"unknown descriptor {datum.render}"

/-- Primitive bytes; a size that is given must be positive. -/
def ofScalar (tag : Tag) : Option Int → Except Fault Descriptor
  | none => .ok (.scalar tag none)
  | some n => if n ≤ 0 then .error (.scalarSize n) else .ok (.scalar tag (some n.toNat))

/-- Fields at byte offsets, which are cut to whole numbers and must not be negative. -/
def ofStruct (fields : List (Datum × Descriptor)) (name : Option String) (size : Option Int) :
    Except Fault Descriptor :=
  let offsets := fields.map fun f => f.1.wholePart?.getD 0
  match offsets.find? (· < 0) with
  | some offset => .error (.negativeOffset offset name)
  | none => .ok (.struct ((offsets.map Int.toNat).zip (fields.map Prod.snd)) name size)

/-- Elements of an array, whose distance and number must not be negative. -/
def ofArray (element : Descriptor) (stride count : Int) : Except Fault Descriptor :=
  if stride < 0 || count < 0 then .error (.negativeArray stride count)
  else .ok (.array element stride.toNat count.toNat)

end Descriptor

/-- Layouts by name. -/
abbrev Registry := OrderedMap String Descriptor

/-- The layout of a given name. -/
def Registry.resolve (registry : Registry) (name : String) : Except Descriptor.Fault Descriptor :=
  match registry.get? name with
  | some d => .ok d
  | none => .error (.unresolved name)

end ByteLayout
