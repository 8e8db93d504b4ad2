import ByteLayout.Graph.Components
import ByteLayout.Program.Basic

/-! # Call graphs

The functions of a program with an edge for every call. -/

namespace ByteLayout

/-- One call, seen from the graph. -/
structure CallEdge where
  caller : String
  call : Call
  deriving DecidableEq, Repr, Inhabited

namespace CallEdge

/-- The called function. -/
def callee (e : CallEdge) : String := e.call.callee

/-- The text of an edge in reports. -/
def describe (e : CallEdge) : String :=
  s!"CallGraphEdge({e.caller} -> {e.callee}, {(Instruction.call e.call).render})"

end CallEdge

/-- The functions of a program and the calls between them. -/
structure CallGraph where
  nodes : List Function := []
  edges : List CallEdge := []
  deriving Inhabited

namespace CallGraph

/-- The graph of a program, whose calls must name functions of it. -/
def ofProgram (p : Program) : Except ProgramFault CallGraph := do
  p.functionList.forM fun f => f.calls.forM fun c => discard (p.function c.callee)
  return {
    nodes := p.functionList
    edges := p.functionList.flatMap fun f => f.calls.map fun c => ⟨f.name, c⟩ }

/-- The names of the functions, in the order of their definition. -/
def names (g : CallGraph) : List String := g.nodes.map Function.name

/-- The function of a given name. -/
def node (g : CallGraph) (name : String) : Except ProgramFault Function :=
  match g.nodes.find? fun f => f.name = name with
  | some f => .ok f
  | none => .error (.noNode name)

/-- The functions that a function calls, one for every call. -/
def callees (g : CallGraph) (name : String) : List String :=
  (g.edges.filter fun e => e.caller = name).map CallEdge.callee

/-- The functions that call a function, one for every call. -/
def callers (g : CallGraph) (name : String) : List String :=
  (g.edges.filter fun e => e.callee = name).map CallEdge.caller

/-- Whether a function calls itself. -/
def isSelfRecursive (g : CallGraph) (name : String) : Bool := name ∈ g.callees name

/-- The groups of functions that call each other, callees first. -/
def components (g : CallGraph) : List (List String) := Graph.components g.names g.callees

/-- Whether the functions of a group call each other again and again. -/
def isRecursive (g : CallGraph) : List String → Bool
  | [name] => g.isSelfRecursive name
  | group => 1 < group.length

/-- The groups of functions that are recursive. -/
def recursiveComponents (g : CallGraph) : List (List String) := g.components.filter g.isRecursive

/-- The recursive groups with their names in alphabetical order. -/
def recursiveNames (g : CallGraph) : List (List String) :=
  g.recursiveComponents.map fun group => group.mergeSort fun a b => decide (a ≤ b)

/-- All functions, callees before their callers as far as recursion allows. -/
def bottomUp (g : CallGraph) : List String := g.components.flatten

/-- The text of a graph in reports. -/
def describe (g : CallGraph) : String :=
  s!"CallGraph(nodes={g.nodes.length}, edges={g.edges.length})"

end CallGraph

/-- What a function is in the call graph: one with a body, or only declared. -/
def Function.kind (f : Function) : String := if f.external then "external" else "function"

/-- The text of a function in reports on the call graph. -/
def Function.describe (f : Function) : String :=
  s!"CallGraphNode({Text.quote f.name}, kind={f.kind})"

end ByteLayout
