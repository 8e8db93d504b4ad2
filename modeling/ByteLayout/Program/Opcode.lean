/-! # Values and kinds of instructions

Values of a program are known by name. Instructions come in a few kinds. -/

namespace ByteLayout

/-- The name of a value of a program. -/
abbrev ValueId := String

/-- The kinds of instructions; `other` is a kind that nothing is known about. -/
inductive Opcode where
  | copy
  | load
  | store
  | offset
  | arith
  | call
  | ret
  | other (name : String)
  deriving DecidableEq, Repr, Inhabited

namespace Opcode

/-- The written name of a kind. -/
def name : Opcode → String
  | .copy => "copy"
  | .load => "load"
  | .store => "store"
  | .offset => "offset"
  | .arith => "arith"
  | .call => "call"
  | .ret => "return"
  | .other name => name

/-- The kind with a given name. -/
def ofName : String → Opcode
  | "copy" => .copy
  | "load" => .load
  | "store" => .store
  | "offset" => .offset
  | "arith" => .arith
  | "call" => .call
  | "return" => .ret
  | name => .other name

end Opcode

end ByteLayout
