import ByteLayout.Program.Fault
import ByteLayout.Tag

/-! # Instructions

An instruction says how the values that it names depend on each other. A draft holds the parts of an
instruction as they are given; it becomes an instruction when all parts that its kind needs are
there. Parts that the kind has no use for are dropped, except a result, which is kept as a value
that the instruction names. -/

namespace ByteLayout

/-- A call of a function. -/
structure Call where
  result : Option ValueId
  callee : String
  arguments : List ValueId
  deriving DecidableEq, Repr, Inhabited

/-- One instruction of a function body. -/
inductive Instruction where
  /-- The result and all operands are the same. -/
  | copy (result : ValueId) (operands : List ValueId)
  /-- The result is what `size` bytes at the pointer hold. -/
  | load (result pointer : ValueId) (size : Nat)
  /-- The value is put into `size` bytes at the pointer. -/
  | store (result : Option ValueId) (value pointer : ValueId) (size : Nat)
  /-- The result is the pointer moved by some bytes. -/
  | offset (result pointer : ValueId) (bytes : Nat)
  /-- The result and all operands are of one kind. -/
  | arith (result : ValueId) (operands : List ValueId) (tag : Tag)
  /-- A function is called. -/
  | call (call : Call)
  /-- The function returns the value. -/
  | ret (result : Option ValueId) (value : ValueId)
  /-- An instruction of unknown meaning. -/
  | other (name : String) (result : Option ValueId) (operands : List ValueId)
  deriving DecidableEq, Repr, Inhabited

/-- The parts of an instruction as they are given. -/
structure Draft where
  opcode : Opcode
  result : Option ValueId := none
  operands : List ValueId := []
  size : Option Int := none
  offset : Int := 0
  tag : Option Tag := none
  callee : Option String := none
  deriving Inhabited

namespace Draft

/-- The size of a load or store, which must be positive. -/
def positiveSize (d : Draft) : Except ProgramFault Nat :=
  match d.size with
  | none => .error (.size d.opcode none)
  | some n => if n ≤ 0 then .error (.size d.opcode (some n)) else .ok n.toNat

/-- The instruction with the given parts. The size is judged before the operands, and the operands
before the offset. -/
def check (d : Draft) : Except ProgramFault Instruction :=
  match d.opcode with
  | .copy =>
    match d.result, d.operands with
    | some result, operand :: more => .ok (.copy result (operand :: more))
    | _, _ => .error .copyParts
  | .load => do
    let size ← d.positiveSize
    match d.result, d.operands with
    | some result, [pointer] => .ok (.load result pointer size)
    | _, _ => .error .loadParts
  | .store => do
    let size ← d.positiveSize
    match d.operands with
    | [value, pointer] => .ok (.store d.result value pointer size)
    | _ => .error .storeParts
  | .offset =>
    match d.result, d.operands with
    | some result, [pointer] =>
      if d.offset < 0 then .error (.negativeOffset d.offset)
      else .ok (.offset result pointer d.offset.toNat)
    | _, _ => .error .offsetParts
  | .arith =>
    match d.result, d.tag with
    | some result, some tag => .ok (.arith result d.operands tag)
    | _, _ => .error .arithParts
  | .call =>
    match d.callee with
    | none | some "" => .error .callParts
    | some callee => .ok (.call ⟨d.result, callee, d.operands⟩)
  | .ret =>
    match d.operands with
    | [value] => .ok (.ret d.result value)
    | _ => .error .returnParts
  | .other name => .ok (.other name d.result d.operands)

end Draft

namespace Instruction

/-- The kind of an instruction. -/
def opcode : Instruction → Opcode
  | .copy .. => .copy
  | .load .. => .load
  | .store .. => .store
  | .offset .. => .offset
  | .arith .. => .arith
  | .call _ => .call
  | .ret .. => .ret
  | .other name .. => .other name

/-- The value that an instruction defines, if it names one. -/
def result? : Instruction → Option ValueId
  | .copy result _ => some result
  | .load result .. => some result
  | .store result .. => result
  | .offset result .. => some result
  | .arith result .. => some result
  | .call c => c.result
  | .ret result _ => result
  | .other _ result _ => result

/-- The values that an instruction uses. -/
def operands : Instruction → List ValueId
  | .copy _ operands => operands
  | .load _ pointer _ => [pointer]
  | .store _ value pointer _ => [value, pointer]
  | .offset _ pointer _ => [pointer]
  | .arith _ operands _ => operands
  | .call c => c.arguments
  | .ret _ value => [value]
  | .other _ _ operands => operands

/-- Every value that an instruction names, the result first. -/
def values (i : Instruction) : List ValueId := i.result?.toList ++ i.operands

/-- What is written after the operands of an instruction. -/
def detail : Instruction → String
  | .load _ _ size => s!" [{size}B]"
  | .store _ _ _ size => s!" [{size}B]"
  | .offset _ _ bytes => s!" +{bytes}"
  | .arith _ _ tag => s!" : {tag.render}"
  | .call c => s!" @{c.callee}"
  | _ => ""

/-- The written form of an instruction. A result with an empty name is not shown. -/
def render (i : Instruction) : String :=
  let target :=
    match i.result? with
    | none | some "" => ""
    | some result => result ++ " = "
  target ++ i.opcode.name ++ " " ++ ", ".intercalate i.operands ++ i.detail

instance : ToString Instruction := ⟨render⟩

/-- The call that an instruction makes, if it is one. -/
def call? : Instruction → Option Call
  | .call c => some c
  | _ => none

end Instruction

end ByteLayout
