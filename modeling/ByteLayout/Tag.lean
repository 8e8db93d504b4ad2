import ByteLayout.Text.Quoted

/-! # Tags

What is known about the bytes at one path. The tags form a lattice of height three: nothing is
known, one definite kind, or kinds that contradict each other. Floats of different precision are
different kinds.

A policy says whether an integer may carry an address. Under the unified policy an integer lies
below a pointer instead of contradicting it. -/

namespace ByteLayout

/-- The widths of floating-point numbers. -/
inductive Precision where
  | half
  | bfloat
  | float
  | double
  | x86fp80
  | fp128
  | ppcfp128
  deriving DecidableEq, Repr, Inhabited

namespace Precision

/-- All precisions. -/
def all : List Precision := [.half, .bfloat, .float, .double, .x86fp80, .fp128, .ppcfp128]

/-- The written name of a precision. -/
def name : Precision → String
  | .half => "half"
  | .bfloat => "bfloat"
  | .float => "float"
  | .double => "double"
  | .x86fp80 => "x86_fp80"
  | .fp128 => "fp128"
  | .ppcfp128 => "ppc_fp128"

/-- The bytes that a number of this precision takes, without padding. -/
def byteSize : Precision → Nat
  | .half => 2
  | .bfloat => 2
  | .float => 4
  | .double => 8
  | .x86fp80 => 10
  | .fp128 => 16
  | .ppcfp128 => 16

/-- The precision with a given name. -/
def ofName? (name : String) : Option Precision := all.find? fun p => p.name = name

end Precision

/-- Whether an integer may carry an address. -/
inductive Policy where
  | distinct
  | unified
  deriving DecidableEq, Repr, Inhabited

/-- The unified policy when the flag is set, the distinct one otherwise. -/
def Policy.ofFlag : Bool → Policy
  | true => .unified
  | false => .distinct

/-- What is known about the bytes at one path. -/
inductive Tag where
  | bottom
  | integer
  | float (precision : Precision)
  | pointer
  | anything
  deriving DecidableEq, Repr, Inhabited

namespace Tag

/-- The kinds of tags, without the precision of a float. -/
inductive Kind where
  | bottom
  | integer
  | float
  | pointer
  | anything
  deriving DecidableEq, Repr, Inhabited

namespace Kind

/-- All kinds. -/
def all : List Kind := [.bottom, .integer, .float, .pointer, .anything]

/-- The written name of a kind. -/
def name : Kind → String
  | .bottom => "Bottom"
  | .integer => "Integer"
  | .float => "Float"
  | .pointer => "Pointer"
  | .anything => "Anything"

/-- The kind with a given name. -/
def ofName? (name : String) : Option Kind := all.find? fun k => k.name = name

end Kind

/-- The ways in which a text or a combination fails to be a tag. -/
inductive Fault where
  | unknownTag (name : String)
  | unknownPrecision (name : String)
  | precisionRequired
  | precisionRefused (kind : Kind)
  | precisionMismatch
  | notFloat (tag : Tag)

/-- The kind of a tag. -/
def kind : Tag → Kind
  | .bottom => .bottom
  | .integer => .integer
  | .float _ => .float
  | .pointer => .pointer
  | .anything => .anything

/-- The precision of a tag; only floats have one. -/
def precision? : Tag → Option Precision
  | .float p => some p
  | _ => none

/-- The written form of a tag. -/
def render (t : Tag) : String :=
  match t.precision? with
  | some p => t.kind.name ++ "@" ++ p.name
  | none => t.kind.name

instance : ToString Tag := ⟨render⟩

/-- The text of a tag in reports. -/
def describe (t : Tag) : String := "ConcreteType(" ++ t.render ++ ")"

/-- The wording of a fault. -/
def Fault.message : Fault → String
  | .unknownTag name => s!"unknown type tag {Text.quote name}"
  | .unknownPrecision name => s!"unknown float precision {Text.quote name}"
  | .precisionRequired => "Float requires a precision, e.g. Float@double"
  | .precisionRefused kind => s!"{kind.name} does not take a precision"
  | .precisionMismatch => "a precision is required for Float and forbidden otherwise"
  | .notFloat tag => s!"{tag.render} is not a floating-point type"

/-- The tag of a kind and a precision, which floats need and other kinds refuse. -/
def ofKind : Kind → Option Precision → Except Fault Tag
  | .bottom, none => .ok .bottom
  | .integer, none => .ok .integer
  | .float, some p => .ok (.float p)
  | .pointer, none => .ok .pointer
  | .anything, none => .ok .anything
  | _, _ => .error .precisionMismatch

/-- The precision with a given name, or the fault that there is none. -/
def precisionOf (name : String) : Except Fault Precision :=
  match Precision.ofName? name with
  | some p => .ok p
  | none => .error (.unknownPrecision name)

/-- The float whose precision has a given name. -/
def floatOf (name : String) : Except Fault Tag := do
  return .float (← precisionOf name)

/-- The tag that a text stands for: the name of a kind and, after the first `@`, a precision. -/
def parse (text : String) : Except Fault Tag :=
  let cs := text.toList
  let name := String.ofList (cs.takeWhile (· ≠ '@'))
  match Kind.ofName? name, cs.dropWhile (· ≠ '@') with
  | none, _ => .error (.unknownTag name)
  | some .float, [] => .error .precisionRequired
  | some .float, _ :: sub => floatOf (String.ofList sub)
  | some kind, [] => ofKind kind none
  | some kind, _ :: _ => .error (.precisionRefused kind)

/-- Neither unknown nor contradictory. -/
def isKnown (t : Tag) : Bool := t ≠ .bottom && t ≠ .anything

/-- Integer or float: bytes that have no structure behind them. -/
def isScalar : Tag → Bool
  | .integer | .float _ => true
  | _ => false

/-- A tag that does not rule out an address. -/
def isPossiblePointer : Tag → Bool
  | .bottom | .pointer | .anything => true
  | _ => false

/-- A tag that does not rule out a float. -/
def isPossibleFloat : Tag → Bool
  | .bottom | .float _ | .anything => true
  | _ => false

/-- The bytes that a float takes. -/
def floatSize (t : Tag) : Except Fault Nat :=
  match t.precision? with
  | some p => .ok p.byteSize
  | none => .error (.notFloat t)

/-- Whether one tag is an integer and the other one a pointer. -/
def isAddressClash : Tag → Tag → Bool
  | .integer, .pointer | .pointer, .integer => true
  | _, _ => false

/-- The join of two tags: two different known kinds contradict each other, unless the policy
reconciles an integer with a pointer. -/
def join (policy : Policy) (a b : Tag) : Tag :=
  if a = .bottom then b
  else if b = .bottom then a
  else if a = b then a
  else if policy = .unified && isAddressClash a b then .pointer
  else .anything

/-- Whether a join brings no two known kinds into contradiction. -/
def isLegalJoin (policy : Policy) (a b : Tag) : Bool :=
  !(a.isKnown && b.isKnown && a ≠ b) || (policy = .unified && isAddressClash a b)

/-- The meet of two tags: different known kinds have only the unknown below them. -/
def meet (a b : Tag) : Tag :=
  if a = .anything then b
  else if b = .anything then a
  else if a = b then a
  else .bottom

/-- The order of the lattice in which integers and pointers are distinct. -/
def leq (a b : Tag) : Bool := a = .bottom || b = .anything || a = b

end Tag

end ByteLayout
