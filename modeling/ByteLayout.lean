import ByteLayout.Double.Basic
import ByteLayout.Double.Shortest
import ByteLayout.Text.Unassigned
import ByteLayout.Text.Quoted
import ByteLayout.Datum
import ByteLayout.Log
import ByteLayout.OrderedMap.Basic
import ByteLayout.OrderedMap.Lemmas
import ByteLayout.Path.Basic
import ByteLayout.Path.Lemmas
import ByteLayout.Path.Checked
import ByteLayout.Tag
import ByteLayout.Tree.Basic
import ByteLayout.Tree.Merge
import ByteLayout.Tree.Filter
import ByteLayout.Tree.Rerooting
import ByteLayout.Tree.Lemmas
import ByteLayout.Tree.Cell
import ByteLayout.Lattice
import ByteLayout.TreeText.Matcher
import ByteLayout.TreeText.Grammar
import ByteLayout.TreeText.Reader
import ByteLayout.Options
import ByteLayout.Descriptor.Basic
import ByteLayout.Descriptor.Size
import ByteLayout.Descriptor.Layout
import ByteLayout.Descriptor.Builder
import ByteLayout.Program.Opcode
import ByteLayout.Program.Fault
import ByteLayout.Program.Instruction
import ByteLayout.Program.Basic
import ByteLayout.Graph.Components
import ByteLayout.CallGraph
import ByteLayout.Propagation.Transfer
import ByteLayout.Propagation.RuleSystem
import ByteLayout.Propagation.Run
import ByteLayout.Propagation.Outcome
import ByteLayout.Catalogue
import ByteLayout.Proofs.TagOrder
import ByteLayout.Proofs.TreeOrder
import ByteLayout.Proofs.Join
import ByteLayout.Proofs.Bound
import ByteLayout.Proofs.ProgramSystem
import ByteLayout.Proofs.Equation
import ByteLayout.Proofs.Worklist
import ByteLayout.Proofs.Termination
import ByteLayout.Proofs.InstructionContract
import ByteLayout.Proofs.FormedEntries
import ByteLayout.Proofs.RunInvariant
import ByteLayout.Proofs.WrittenLanguage
import ByteLayout.Proofs.GreedyReading
import ByteLayout.Proofs.FailureRecord
import ByteLayout.Proofs.AcceptedText
import ByteLayout.Proofs.FirstOffence
import ByteLayout.Proofs.RoundTrip
import ByteLayout.Proofs.Session
import ByteLayout.Proofs.SteadyTransfer
import ByteLayout.Proofs.LeastSolution
import ByteLayout.Proofs.OrderIndependence
import ByteLayout.Proofs.DepthFirstSearch
import ByteLayout.Proofs.FrameSearch
import ByteLayout.Proofs.CallComponents
import ByteLayout.Proofs.TreeOfEntries
import ByteLayout.Proofs.AccessChains
import ByteLayout.Proofs.GradualFilling
import ByteLayout.Proofs.Growth
import ByteLayout.Proofs.WalkInduction
import ByteLayout.Proofs.DerivedSizes
import ByteLayout.Proofs.WorkStack
import ByteLayout.Proofs.EndlessLayouts
import ByteLayout.Proofs.Reconciliation
import ByteLayout.Proofs.Meet
import ByteLayout.Proofs.PointerMoves
import ByteLayout.Proofs.DepthLimit
import ByteLayout.Proofs.PolicyPrecision
import ByteLayout.Proofs.CellHistory
import ByteLayout.Proofs.RerootedTrees
import ByteLayout.Proofs.RebasedBytes
import ByteLayout.Proofs.SharedRegistry
