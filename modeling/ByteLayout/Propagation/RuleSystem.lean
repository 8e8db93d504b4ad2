import ByteLayout.CallGraph
import ByteLayout.Lattice
import ByteLayout.Propagation.Transfer
import ByteLayout.Tree.Filter

/-! # Systems of rules

A system tracks values and holds rules in the order of their registration. The system of a program
has the rules of all its instructions; more rules may be added. For every value it gives an equation:
the tree of the value is the bounded join of itself, its seed and what the rules that target it make
of their sources. -/

namespace ByteLayout

/-- Tracked values and the rules between them. -/
structure RuleSystem where
  options : Options
  graph : CallGraph
  tracked : List ValueId
  rules : List Rule
  deriving Inhabited

/-- The rules that an instruction of a function gives rise to. -/
def Program.rulesOf (p : Program) (f : Function) (i : Instruction) :
    Except ProgramFault (List Rule) :=
  match i with
  | .copy result operands => .ok (operands.flatMap fun operand => Rule.bothWays result operand i)
  | .load result pointer size =>
    .ok [⟨result, [pointer], .total (.loaded size), some i⟩,
      ⟨pointer, [result], .total .stored, some i⟩]
  | .store _ value pointer size =>
    .ok [⟨pointer, [value], .total .stored, some i⟩,
      ⟨value, [pointer], .total (.loaded size), some i⟩]
  | .offset result pointer bytes =>
    .ok [⟨result, [pointer], .total (.movedForward bytes), some i⟩,
      ⟨pointer, [result], .total (.movedBackward bytes), some i⟩]
  | .arith result operands tag =>
    .ok ((result :: operands).map fun v => ⟨v, [], .constant tag, some i⟩)
  | .call c => do
    let callee ← p.function c.callee
    let arguments := (c.arguments.zip callee.arguments).flatMap fun (actual, formal) =>
      Rule.bothWays formal actual i
    match c.result, callee.returnValue? with
    | some result, some returned =>
      return arguments ++ [⟨result, [returned], .identity, some i⟩]
    | _, _ => return arguments
  | .ret _ value =>
    match f.returnValue? with
    | some returned => .ok [⟨returned, [value], .identity, some i⟩]
    | none => .error (.returnsNothing f.name)
  | .other name .. => .error (.unsupported (.other name))

namespace RuleSystem

/-- The values with one more at the end, unless it is among them. -/
def track (values : List ValueId) (v : ValueId) : List ValueId :=
  if v ∈ values then values else values ++ [v]

/-- The system with one more rule. Its target and its sources become tracked. -/
def addRule (s : RuleSystem) (r : Rule) : RuleSystem :=
  { s with
    tracked := (r.target :: r.sources).foldl track s.tracked
    rules := s.rules ++ [r] }

/-- The system of a program, which must be sound. -/
def ofProgram (p : Program) (options : Options) : Except ProgramFault RuleSystem := do
  p.validate
  let graph ← CallGraph.ofProgram p
  let rules ← p.functionList.mapM fun f => f.body.mapM (p.rulesOf f)
  return rules.flatten.flatten.foldl addRule ⟨options, graph, p.values, []⟩

/-- The rules that target a value, in the order of their registration. -/
def rulesFor (s : RuleSystem) (v : ValueId) : List Rule := s.rules.filter fun r => r.target = v

/-- The values that have a rule which reads a value, in the order of registration. -/
def dependents (s : RuleSystem) (v : ValueId) : List ValueId :=
  ((s.rules.filter fun r => v ∈ r.sources).map Rule.target).eraseDups

/-- All values in the order in which they are first looked at: those of callees before those of
their callers, then the rest. -/
def order (s : RuleSystem) : List ValueId :=
  let functions := s.graph.bottomUp.filterMap fun name =>
    s.graph.nodes.find? fun f => f.name = name
  (functions.flatMap Function.values ++ s.tracked).eraseDups

/-- The part of a tree that lies within the bounds of the options. -/
def bound (s : RuleSystem) (t : Tree) : Tree :=
  t.bounded s.options.maxDepth s.options.maxTypeOffset

/-- What the rules that target a value make of the trees of their sources. -/
def contributions (s : RuleSystem) (trees : ValueId → Tree) (v : ValueId) :
    Except Tree.Fault (List Tree) :=
  (s.rulesFor v).mapM fun r => r.apply (r.sources.map trees)

/-- The right side of a value's equation. -/
def equation (s : RuleSystem) (seed : ValueId → Tree) (trees : ValueId → Tree) (v : ValueId) :
    Except Tree.Fault Tree := do
  let more ← s.contributions trees v
  return s.bound ((Tree.lattice s.options.policy).joinAll (trees v :: seed v :: more))

end RuleSystem

end ByteLayout
