import ByteLayout.Propagation.Run
import ByteLayout.Tree.Cell

/-! # What an analysis has found

The trees of an outcome are final. They are asked for by value, or for a function as a whole. -/

namespace ByteLayout

/-- The trees of the arguments of a function and of what it returns. -/
structure Summary where
  name : String
  arguments : List Tree
  returned : Option Tree
  deriving Inhabited

/-- The text of a summary. -/
def Summary.render (s : Summary) : String :=
  let returned := match s.returned with
    | some t => t.render
    | none => "void"
  s!"{s.name}(" ++ ", ".intercalate (s.arguments.map Tree.render) ++ ") -> " ++ returned

namespace Outcome

/-- The tree of a value. -/
def treeOf (o : Outcome) (v : ValueId) : Except ProgramFault Tree :=
  match o.slots.get? v with
  | some slot => .ok slot.tree
  | none => .error (.unknownValue v)

/-- The tree of a value as a frozen cell. -/
def cellOf (o : Outcome) (v : ValueId) : Except ProgramFault Cell := do
  return ⟨← o.treeOf v, true⟩

/-- The summary of a function of a program. -/
def summary (o : Outcome) (p : Program) (name : String) : Except ProgramFault Summary := do
  let f ← p.function name
  let returned ← match f.returnValue? with
    | some v => some <$> o.treeOf v
    | none => pure none
  let arguments ← f.arguments.mapM o.treeOf
  return ⟨f.name, arguments, returned⟩

/-- One line for every value. -/
def dump (o : Outcome) : String :=
  "\n".intercalate (o.slots.entries.map fun e => s!"{e.1}: {e.2.tree.render}")

end Outcome

/-- Why an analysis has no outcome. -/
inductive AnalysisFault where
  | program (fault : ProgramFault)
  | run (failure : RunFailure)

/-- Analyses a program: makes its system and runs it. -/
def Program.analyze (p : Program) (options : Options) : Except AnalysisFault Outcome :=
  match RuleSystem.ofProgram p options with
  | .error fault => .error (.program fault)
  | .ok s =>
    match s.run p with
    | .error failure => .error (.run failure)
    | .ok o => .ok o

end ByteLayout
