/-! # Catalogue

The components under which the operations are offered to other tools, and the public names of each
of them. -/

namespace ByteLayout.Catalogue

/-- The version of what is offered. -/
def version : String := "0.1.0"

/-- The components in the order in which they build on each other, with their public names. -/
def components : List (String × List String) :=
  [("errors", ["TypeTreeError", "MalformedPathError", "RecursionLimitExceeded",
      "TypeTreeParseError", "FrozenTypeTreeError", "DescriptorError", "ProgramError",
      "ConfigError"]),
   ("config", ["AnalysisOptions", "DEFAULT_OPTIONS"]),
   ("path", ["ANY_OFFSET", "Path", "ROOT"]),
   ("concrete_type", ["BaseType", "FloatPrecision", "ConcreteType", "BOTTOM", "INTEGER", "POINTER",
      "ANYTHING", "FLOAT", "DOUBLE", "checked_merge"]),
   ("type_tree", ["TypeTree", "merge_all"]),
   ("lattice", ["Lattice", "TypeTreeLattice"]),
   ("codec", ["encode", "decode"]),
   ("descriptors", ["Scalar", "Struct", "Array", "PointerTo", "DescriptorRef",
      "DescriptorRegistry", "TypeTreeBuilder", "build_type_tree", "struct"]),
   ("program", ["OpKind", "Instruction", "Function", "Program"]),
   ("callgraph", ["CallGraph", "CallGraphNode", "CallGraphEdge", "build_callgraph"]),
   ("propagator", ["ValueState", "TransferRule", "FunctionTypeInfo", "PropagationResult",
      "FixpointPropagator", "analyze"])]

/-- The names of the components in alphabetical order. -/
def componentNames : List String :=
  (components.map Prod.fst).mergeSort fun a b => decide (a ≤ b)

/-- Everything that is offered: the names of each component and then the component itself. -/
def exports : List String := components.flatMap fun c => c.2 ++ [c.1]

end ByteLayout.Catalogue
