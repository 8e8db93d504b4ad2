import ByteLayout.Descriptor.Basic
import ByteLayout.Log
import ByteLayout.Options
import ByteLayout.Tree.Merge

/-! # Laying out descriptors

The tree of a descriptor holds what a walk over it meets: the kind of every primitive at its path,
and a pointer at the path of every address. Fields move the walk on at its own depth, one element
stands for all elements of an array, and an address takes the walk one depth further. Where an
address lies at the last depth that is allowed, its pointee is not laid out; a contradictory entry
one hop further marks it as opaque.

A name that is met again inside its own layout, without an address in between, would take infinitely
many bytes and is refused. -/

namespace ByteLayout

/-- An address whose pointee lies deeper than allowed. -/
structure Truncation where
  path : Path
  depth : Nat
  limit : Nat
  deriving DecidableEq, Repr, Inhabited

/-- The wording of a truncation. -/
def Truncation.message (t : Truncation) : String :=
  s!"dereference depth {t.depth} at {t.path.render} exceeds the limit of {t.limit}"

namespace Descriptor

/-- What a walk has met so far, in order. -/
structure Trail where
  entries : List (Path × Tag) := []
  truncations : List Truncation := []
  deriving Inhabited

/-- The trail with one more entry. -/
def Trail.add (trail : Trail) (p : Path) (tag : Tag) : Trail :=
  { trail with entries := trail.entries ++ [(p, tag)] }

/-- The trail with an address that was cut off: its pointee is opaque. -/
def Trail.cut (trail : Trail) (t : Truncation) : Trail :=
  { entries := trail.entries ++ [(t.path.append .any, .anything)]
    truncations := trail.truncations ++ [t] }

/-- Why a walk ended before its time. -/
inductive Stop where
  | fault (fault : Fault)
  | tooDeep (truncation : Truncation)

/-- The wording of a stop. -/
def Stop.message : Stop → String
  | .fault f => f.message
  | .tooDeep t => t.message

/-- A walk that ended before its time, with what it had cut off until then. -/
structure Failure where
  stop : Stop
  truncations : List Truncation

/-- A walk from some point on. -/
abbrev Walk := Trail → Except Failure Trail

/-- The walk that ends at once. -/
def halt (stop : Stop) : Walk := fun trail => .error ⟨stop, trail.truncations⟩

mutual

/-- The walk over a descriptor at a path, up to its addresses and names. -/
def walkWith (onPointer : Path → Descriptor → Walk) (onName : String → Path → Walk) (p : Path) :
    Descriptor → Walk
  | .scalar tag _ => fun trail => .ok (trail.add p tag)
  | .struct fields _ _ => walkFields onPointer onName p fields
  | .array element _ count =>
    if 0 < count then walkWith onPointer onName (p.shiftLast 0) element else .ok
  | .pointer pointee => onPointer p pointee
  | .ref name => onName name p
  | .foreign datum => halt (.fault (.unknown datum))
termination_by structural d => d

/-- The walk over the fields of a struct at a path, one after the other. -/
def walkFields (onPointer : Path → Descriptor → Walk) (onName : String → Path → Walk) (p : Path) :
    List (Nat × Descriptor) → Walk
  | [] => .ok
  | (offset, field) :: rest => fun trail =>
    match walkWith onPointer onName (p.shiftLast offset) field trail with
    | .error failure => .error failure
    | .ok trail' => walkFields onPointer onName p rest trail'
termination_by structural fields => fields

end

/-- The walk over a name inside the layouts of the names `opened`; `go` walks over its layout. -/
def walkName (registry : Registry) (go : List String → Path → Descriptor → Walk)
    (opened : List String) (name : String) (p : Path) : Walk :=
  if name ∈ opened then halt (.fault (.containsItself name opened))
  else
    match registry.get? name with
    | none => halt (.fault (.unresolved name))
    | some d => go (opened ++ [name]) p d

/-- The walk over a descriptor inside the layouts of the names `opened`, up to its addresses, when at
most `names` more names can be opened. -/
def walkAmong (onPointer : Path → Descriptor → Walk) (registry : Registry) :
    Nat → List String → Path → Descriptor → Walk
  | 0, opened => walkWith onPointer (walkName registry (fun _ _ _ => .ok) opened)
  | names + 1, opened =>
    walkWith onPointer (walkName registry (walkAmong onPointer registry names) opened)

/-- What becomes of an address whose pointee lies deeper than allowed. -/
def cutOff (options : Options) (p : Path) : Walk := fun trail =>
  let truncation : Truncation := ⟨p, p.depth + 1, options.maxDepth⟩
  if options.recursionLimitFatal then halt (.tooDeep truncation) trail
  else .ok (trail.cut truncation)

/-- The walk over a descriptor at a path, with `depths` dereferences left. -/
def walk (options : Options) (registry : Registry) : Nat → Path → Descriptor → Walk
  | 0 =>
    walkAmong (fun p _ trail => cutOff options p (trail.add p .pointer)) registry registry.size []
  | depths + 1 =>
    walkAmong
      (fun p pointee trail =>
        walk options registry depths (p.append (.byte 0)) pointee (trail.add p .pointer))
      registry registry.size []

/-- The tree of a descriptor, with what was cut off. -/
structure Layout where
  tree : Tree
  truncations : List Truncation
  deriving Inhabited

/-- Lays out a descriptor from a path on. -/
def layout (options : Options) (registry : Registry) (root : Path) (d : Descriptor) :
    Except Failure Layout :=
  match walk options registry (options.maxDepth - root.depth) root d {} with
  | .error failure => .error failure
  | .ok trail => .ok ⟨.ofEntries options.policy trail.entries, trail.truncations⟩

/-- What is logged about the addresses that were cut off on the way. -/
def truncationLog (truncations : List Truncation) : List Log.Entry :=
  truncations.map fun t => ⟨.debug, "truncating descriptor walk: " ++ t.message⟩

/-- What is logged about a walk that ended before its time. -/
def Failure.log (f : Failure) : List Log.Entry := truncationLog f.truncations

/-- What is logged about a layout. -/
def Layout.log (options : Options) (l : Layout) : List Log.Entry :=
  if l.truncations.isEmpty then []
  else truncationLog l.truncations ++ [⟨.warning,
    s!"descriptor truncated at {l.truncations.length} pointer(s) beyond " ++
      s!"max_depth={options.maxDepth}"⟩]

end Descriptor

end ByteLayout
