import ByteLayout.Descriptor.Layout

/-! # Builders

A builder lays out descriptors with fixed options. It is made with a registry and goes on looking at
it, so that later definitions count; but a builder that is made without a registry, or with an empty
one, gets an empty registry of its own. It remembers what its last layout cut off. -/

namespace ByteLayout

/-- Where a builder finds its names. -/
inductive NameSource where
  /-- The registry that the builder was made with, as it is at the time. -/
  | shared
  /-- A registry that nobody else changes. -/
  | own (registry : Registry)
  deriving Inhabited

/-- Lays out descriptors with fixed options. -/
structure Builder where
  options : Options
  names : NameSource
  report : List Truncation := []
  deriving Inhabited

namespace Builder

/-- The builder with the given options and registry. -/
def create (options : Options) (registry : Option Registry) : Builder :=
  match registry with
  | none => { options, names := .own .empty }
  | some registry => { options, names := if registry.isEmpty then .own .empty else .shared }

/-- The registry that a builder looks at while the one it was made with is `current`. -/
def registry (b : Builder) (current : Registry) : Registry :=
  match b.names with
  | .shared => current
  | .own registry => registry

/-- The builder after the registry it was made with, now `current`, was given up by everyone else. -/
def detach (b : Builder) (current : Registry) : Builder :=
  { b with names := .own (b.registry current) }

/-- Lays out a descriptor. A layout that fails leaves the builder as it was. -/
def build (b : Builder) (current : Registry) (root : Path) (d : Descriptor) :
    Except Descriptor.Failure (Descriptor.Layout × Builder) :=
  match d.layout b.options (b.registry current) root with
  | .error failure => .error failure
  | .ok layout => .ok (layout, { b with report := layout.truncations })

end Builder

/-- The tree of a descriptor that is laid out by a builder made for it alone. -/
def Descriptor.tree (options : Options) (registry : Option Registry) (d : Descriptor) :
    Except Descriptor.Failure Descriptor.Layout :=
  let current := registry.getD .empty
  d.layout options ((Builder.create options registry).registry current) .root

end ByteLayout
