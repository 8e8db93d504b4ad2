import ByteLayout.Datum
import ByteLayout.Tag

/-! # Options

The bounds and the merge policy of an analysis. Options are read from settings, untyped values under
their names; the bounds must be numbers and not too small. -/

namespace ByteLayout

/-- The bounds and the merge policy of an analysis. -/
structure Options where
  /-- The number of dereferences that a path may describe. -/
  maxDepth : Nat := 6
  /-- The largest byte offset that is kept in a path. -/
  maxTypeOffset : Nat := 500
  /-- Whether a layout that goes deeper than `maxDepth` is refused instead of cut off. -/
  recursionLimitFatal : Bool := false
  /-- Whether an integer may carry an address. -/
  policy : Policy := .distinct
  /-- The number of updates after which a propagation stops. -/
  maxIterations : Nat := 1000000
  maxDepth_pos : 1 ≤ maxDepth := by decide
  maxIterations_pos : 1 ≤ maxIterations := by decide

instance : Inhabited Options := ⟨{}⟩

namespace Options

/-- The names under which options are set. -/
inductive Key where
  | maxDepth
  | maxTypeOffset
  | recursionLimitFatal
  | pointerIntSame
  | maxIterations
  deriving DecidableEq, Repr, Inhabited

namespace Key

/-- All keys. -/
def all : List Key :=
  [.maxDepth, .maxTypeOffset, .recursionLimitFatal, .pointerIntSame, .maxIterations]

/-- The written name of a key. -/
def name : Key → String
  | .maxDepth => "max_depth"
  | .maxTypeOffset => "max_type_offset"
  | .recursionLimitFatal => "recursion_limit_fatal"
  | .pointerIntSame => "pointer_int_same"
  | .maxIterations => "max_iterations"

/-- The key with a given name. -/
def ofName? (name : String) : Option Key := all.find? fun k => k.name = name

end Key

/-- The ways in which settings are refused. -/
inductive Fault where
  | unknown (names : List String)
  | unexpected (name : String)
  | notNumber (value : Datum)
  | tooSmall (key : Key) (least : Nat) (value : Datum)

/-- The wording of a fault. -/
def Fault.message : Fault → String
  | .unknown names => "unknown analysis option(s): " ++ ", ".intercalate names
  | .unexpected name => s!"AnalysisOptions.__init__() got an unexpected keyword argument '{name}'"
  | .notNumber value => s!"'<' not supported between instances of '{value.form}' and 'int'"
  | .tooSmall key least value => s!"{key.name} must be >= {least}, got {value.render}"

/-- Settings by name. -/
abbrev Settings := List (String × Datum)

/-- The setting of a key. -/
def setting? (settings : Settings) (key : Key) : Option Datum := settings.lookup key.name

/-- The names that are no key, in their order. -/
def strangers (settings : Settings) : List String :=
  (settings.map Prod.fst).filter fun name => (Key.ofName? name).isNone

/-- The number that is set for a key, which must be at least `least`. -/
def bound (settings : Settings) (key : Key) (least current : Nat) (fits : least ≤ current) :
    Except Fault { n : Nat // least ≤ n } :=
  match setting? settings key with
  | none => .ok ⟨current, fits⟩
  | some value =>
    match value.floor? with
    | none => .error (.notNumber value)
    | some n =>
      if enough : least ≤ n.toNat ∧ 0 ≤ n then .ok ⟨n.toNat, enough.1⟩
      else .error (.tooSmall key least value)

/-- The flag that is set for a key. -/
def flag (settings : Settings) (key : Key) (current : Bool) : Bool :=
  match setting? settings key with
  | none => current
  | some value => value.isSet

/-- Options with some settings changed, all of which have known names. The bounds are judged in the
order depth, offset, iterations. -/
def apply (o : Options) (settings : Settings) : Except Fault Options := do
  let depth ← bound settings .maxDepth 1 o.maxDepth o.maxDepth_pos
  let offset ← bound settings .maxTypeOffset 0 o.maxTypeOffset (Nat.zero_le _)
  let iterations ← bound settings .maxIterations 1 o.maxIterations o.maxIterations_pos
  return {
    maxDepth := depth.val
    maxTypeOffset := offset.val
    recursionLimitFatal := flag settings .recursionLimitFatal o.recursionLimitFatal
    policy := .ofFlag (flag settings .pointerIntSame (o.policy = .unified))
    maxIterations := iterations.val
    maxDepth_pos := depth.property
    maxIterations_pos := iterations.property }

/-- The options of a mapping. Unknown names are refused, all of them at once. -/
def ofSettings (settings : Settings) : Except Fault Options :=
  match strangers settings with
  | [] => apply {} settings
  | names => .error (.unknown (names.mergeSort fun a b => decide (a ≤ b)))

/-- Options with some settings changed. Unknown names are refused, the first of them alone. -/
def replace (o : Options) (settings : Settings) : Except Fault Options :=
  match strangers settings with
  | [] => o.apply settings
  | name :: _ => .error (.unexpected name)

end Options

end ByteLayout
