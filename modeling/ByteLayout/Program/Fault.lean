import ByteLayout.Program.Opcode
import ByteLayout.Text.Quoted

/-! # What can be wrong with a program

The faults of instructions, of functions, of calls, and of questions about values and functions that
do not exist. -/

namespace ByteLayout

/-- The ways in which a program, a part of it, or a question about it is wrong. -/
inductive ProgramFault where
  | size (opcode : Opcode) (size : Option Int)
  | loadParts
  | storeParts
  | offsetParts
  | negativeOffset (offset : Int)
  | arithParts
  | copyParts
  | callParts
  | returnParts
  | noBody (function : String)
  | returnsNothing (function : String)
  | definedTwice (function : String)
  | unknownFunction (name : String)
  | argumentCount (caller callee : String) (given expected : Nat)
  | unusableResult (caller callee : String)
  | noNode (name : String)
  | unsupported (opcode : Opcode)
  | unknownValue (value : ValueId)
  deriving DecidableEq, Repr

/-- The wording of a fault. -/
def ProgramFault.message : ProgramFault → String
  | .size opcode none => s!"{opcode.name} needs a positive size, got None"
  | .size opcode (some n) => s!"{opcode.name} needs a positive size, got {n}"
  | .loadParts => "load takes a result and exactly one pointer operand"
  | .storeParts => "store takes exactly (value, pointer) operands"
  | .offsetParts => "offset takes a result and exactly one pointer operand"
  | .negativeOffset n => s!"offset must be non-negative, got {n}"
  | .arithParts => "arith needs a result and a concrete type"
  | .copyParts => "copy needs a result and at least one operand"
  | .callParts => "call needs a callee name"
  | .returnParts => "return takes exactly one operand"
  | .noBody f => s!"external function {Text.quote f} has no body"
  | .returnsNothing f => s!"function {Text.quote f} does not return a value"
  | .definedTwice f => s!"function {Text.quote f} defined twice"
  | .unknownFunction f => s!"unknown function {Text.quote f}"
  | .argumentCount caller callee given expected =>
    s!"{caller} calls {callee} with {given} argument(s), expected {expected}"
  | .unusableResult caller callee =>
    s!"{caller} uses the result of {callee}, which returns nothing"
  | .noNode f => s!"no call-graph node for {Text.quote f}"
  | .unsupported opcode => s!"unsupported instruction kind {Text.quote opcode.name}"
  | .unknownValue v => s!"unknown value {Text.quote v}"

end ByteLayout
