import ByteLayout.Descriptor.Builder
import ByteLayout.Program.Instruction

/-! # Programs

A program has functions and seeds. A function owns its arguments, a value that sums up what it
returns, and a body; an external function has no body. Seeds are what is known about values
beforehand. Values are names that are shared by the whole program. -/

namespace ByteLayout

/-- A function of a program. -/
structure Function where
  name : String
  arguments : List ValueId := []
  returns : Bool := false
  external : Bool := false
  body : List Instruction := []
  deriving DecidableEq, Repr, Inhabited

namespace Function

/-- The value that sums up what a function returns, if it returns anything. -/
def returnValue? (f : Function) : Option ValueId :=
  if f.returns then some (f.name ++ ".return") else none

/-- The function with one more instruction at the end of its body. -/
def push (f : Function) (i : Instruction) : Function := { f with body := f.body ++ [i] }

/-- The function with one more instruction, if it can have it. -/
def add (f : Function) (i : Instruction) : Except ProgramFault Function :=
  if f.external then .error (.noBody f.name)
  else if i.opcode = .ret && !f.returns then .error (.returnsNothing f.name)
  else .ok (f.push i)

/-- The function with more instructions, up to the first one that it cannot have. -/
def extend (f : Function) : List Instruction → Function × Option ProgramFault
  | [] => (f, none)
  | i :: rest =>
    match f.add i with
    | .ok f' => f'.extend rest
    | .error fault => (f, some fault)

/-- The calls in the body of a function. -/
def calls (f : Function) : List Call := f.body.filterMap Instruction.call?

/-- The values of a function in the order in which they are first mentioned. -/
def values (f : Function) : List ValueId :=
  (f.arguments ++ f.returnValue?.toList ++ f.body.flatMap Instruction.values).eraseDups

end Function

/-- Functions and what is known beforehand. -/
structure Program where
  functions : OrderedMap String Function := .empty
  seeds : OrderedMap ValueId Tree := .empty
  deriving Inhabited

namespace Program

/-- The functions, in the order of their definition. -/
def functionList (p : Program) : List Function := p.functions.entries.map Prod.snd

/-- The function of a given name. -/
def function (p : Program) (name : String) : Except ProgramFault Function :=
  match p.functions.get? name with
  | some f => .ok f
  | none => .error (.unknownFunction name)

/-- The program with one more function. -/
def addFunction (p : Program) (f : Function) : Except ProgramFault Program :=
  if p.functions.contains f.name then .error (.definedTwice f.name)
  else .ok { p with functions := p.functions.insert f.name f }

/-- The program with a function in place of the one of the same name. -/
def setFunction (p : Program) (f : Function) : Program :=
  { p with functions := p.functions.insert f.name f }

/-- What is known beforehand about a value. -/
def seedOf (p : Program) (v : ValueId) : Tree := (p.seeds.get? v).getD .empty

/-- The program in which more is known about a value. -/
def seed (p : Program) (v : ValueId) (t : Tree) : Program :=
  { p with seeds := p.seeds.upsert v fun old =>
      match old with
      | some known => known.merge .distinct t
      | none => t }

/-- All values: those of the functions, one function after the other, then those with seeds. -/
def values (p : Program) : List ValueId :=
  (p.functionList.flatMap Function.values ++ p.seeds.keys).eraseDups

/-- A call must name a function, give it as many arguments as it has, and use its result only if it
returns one. -/
def checkCall (p : Program) (caller : Function) (c : Call) : Except ProgramFault Unit := do
  let callee ← p.function c.callee
  if c.arguments.length ≠ callee.arguments.length then
    .error (.argumentCount caller.name callee.name c.arguments.length callee.arguments.length)
  else if c.result.isSome && !callee.returns then
    .error (.unusableResult caller.name callee.name)
  else .ok ()

/-- Every call of a program must be sound. The first one that is not is reported. -/
def validate (p : Program) : Except ProgramFault Unit :=
  p.functionList.forM fun f => f.calls.forM (p.checkCall f)

/-- The text of a program in reports. -/
def describe (p : Program) : String :=
  s!"Program(functions={p.functions.size}, seeds={p.seeds.size})"

end Program

end ByteLayout
