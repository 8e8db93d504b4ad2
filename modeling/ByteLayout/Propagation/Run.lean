import ByteLayout.Log
import ByteLayout.Propagation.RuleSystem

/-! # Running a system

The run keeps a queue of values whose equation may be violated. It takes the first one, brings its
tree up to its equation, and if the tree grew puts those that depend on it at the end of the queue.
It stops when the queue is empty or the number of updates has reached its limit. -/

namespace ByteLayout

/-- Where a value stands in a run. -/
inductive Status where
  | unvisited
  | queued
  | stable
  deriving DecidableEq, Repr, Inhabited

/-- The name of a status. -/
def Status.label : Status → String
  | .unvisited => "unvisited"
  | .queued => "queued"
  | .stable => "stable"

/-- What a run reports. -/
inductive Event where
  /-- A known tag of a value became contradictory. -/
  | degraded (value : ValueId) (path : Path) (before : Tag)
  /-- The tree of a value grew. -/
  | grew (value : ValueId) (before after : Tree)
  /-- The run stopped with values still queued. -/
  | cutShort (iterations queued : Nat)
  /-- The run is over. -/
  | finished (values functions iterations : Nat)
  /-- A group of functions is recursive. -/
  | recursion (names : List String) (maxDepth : Nat)

/-- The log entry of an event. -/
def Event.entry : Event → Log.Entry
  | .degraded v path before =>
    ⟨.debug, s!"{v}: {path.render} degraded from {before.render} to Anything"⟩
  | .grew v before after => ⟨.debug, s!"{v}: {before.render} -> {after.render}"⟩
  | .cutShort iterations queued =>
    ⟨.warning, s!"Type propagation did not converge after {iterations} iterations " ++
      s!"({queued} value(s) still queued)"⟩
  | .finished values functions iterations =>
    ⟨.info, s!"Propagated {values} value(s) across {functions} function(s) " ++
      s!"in {iterations} iteration(s)"⟩
  | .recursion names maxDepth =>
    ⟨.info, "Recursive component \x7b" ++ ", ".intercalate names ++
      s!"\x7d: argument and return trees are bounded by max_depth={maxDepth}"⟩

/-- The tree of a value and where the value stands. -/
structure Slot where
  tree : Tree
  status : Status
  deriving Inhabited

/-- How far a run has come. -/
structure RunState where
  slots : OrderedMap ValueId Slot
  queue : List ValueId := []
  iterations : Nat := 0
  events : List Event := []
  deriving Inhabited

/-- A run in which a rule failed, with what it had reported until then. -/
structure RunFailure where
  fault : Tree.Fault
  events : List Event

namespace RunState

/-- The tree of a value. -/
def tree (st : RunState) (v : ValueId) : Tree := ((st.slots.get? v).map Slot.tree).getD .empty

/-- The status of a value. -/
def status (st : RunState) (v : ValueId) : Status :=
  ((st.slots.get? v).map Slot.status).getD .unvisited

/-- Gives a value a status. -/
def setStatus (st : RunState) (v : ValueId) (status : Status) : RunState :=
  { st with slots := st.slots.insert v ⟨st.tree v, status⟩ }

/-- Gives a value a tree. -/
def setTree (st : RunState) (v : ValueId) (t : Tree) : RunState :=
  { st with slots := st.slots.insert v ⟨t, st.status v⟩ }

/-- Puts a value at the end of the queue, unless it is queued. -/
def enqueue (st : RunState) (v : ValueId) : RunState :=
  if st.status v = .queued then st
  else { st.setStatus v .queued with queue := st.queue ++ [v] }

/-- What is reported when the tree of a value grows. -/
def growth (v : ValueId) (before after : Tree) : List Event :=
  let degraded := after.sortedEntries.filterMap fun e =>
    let old := before.tag e.1
    if e.2 = .anything && old.isKnown then some (.degraded v e.1 old) else none
  degraded ++ [.grew v before after]

end RunState

namespace RuleSystem

/-- The start of a run: every value has the bounded part of its seed and is queued. -/
def initial (s : RuleSystem) (seed : ValueId → Tree) : RunState :=
  let slots := s.order.foldl (fun m v => m.insert v ⟨s.bound (seed v), .unvisited⟩) .empty
  s.order.foldl RunState.enqueue { slots }

/-- Brings a value up to its equation. If its tree grows, those that depend on it are queued. -/
def update (s : RuleSystem) (seed : ValueId → Tree) (v : ValueId) (st : RunState) :
    Except RunFailure RunState :=
  match s.equation seed st.tree v with
  | .error fault => .error ⟨fault, st.events⟩
  | .ok new =>
    let current := st.tree v
    if (Tree.lattice s.options.policy).leq new current then .ok st
    else
      let grown := { st.setTree v new with
        events := st.events ++ RunState.growth v current new }
      .ok ((s.dependents v).foldl RunState.enqueue grown)

/-- Takes the first value off the queue and updates it. -/
def step (s : RuleSystem) (seed : ValueId → Tree) (st : RunState) : Except RunFailure RunState :=
  match st.queue with
  | [] => .ok st
  | v :: rest =>
    let taken := { st.setStatus v .stable with queue := rest, iterations := st.iterations + 1 }
    s.update seed v taken

/-- At most `fuel` updates, as long as a value is queued. -/
def iterate (s : RuleSystem) (seed : ValueId → Tree) : Nat → RunState → Except RunFailure RunState
  | 0, st => .ok st
  | fuel + 1, st =>
    if st.queue.isEmpty then .ok st
    else
      match s.step seed st with
      | .error failure => .error failure
      | .ok st' => s.iterate seed fuel st'

end RuleSystem

/-- What a run has found. -/
structure Outcome where
  slots : OrderedMap ValueId Slot
  iterations : Nat
  converged : Bool
  events : List Event
  deriving Inhabited

namespace RuleSystem

/-- What is reported at the end of a run of a program with `functions` functions. -/
def closing (s : RuleSystem) (functions : Nat) (st : RunState) : List Event :=
  let cut := if st.queue.isEmpty then [] else [.cutShort st.iterations st.queue.length]
  let groups := s.graph.recursiveNames.map fun names => .recursion names s.options.maxDepth
  cut ++ [.finished st.slots.size functions st.iterations] ++ groups

/-- Runs a system on the seeds of a program. -/
def run (s : RuleSystem) (p : Program) : Except RunFailure Outcome :=
  match s.iterate p.seedOf s.options.maxIterations (s.initial p.seedOf) with
  | .error failure => .error failure
  | .ok st => .ok {
      slots := st.slots
      iterations := st.iterations
      converged := st.queue.isEmpty
      events := st.events ++ s.closing p.functions.size st }

end RuleSystem

end ByteLayout
