import ByteLayout.Descriptor.Basic

/-! # The size of a layout

The number of bytes that a descriptor covers, if it can be derived. A struct ends where its last
field ends. Without a registry the size of a name is not derived; with one, a name whose size is
asked for while it is being derived has no size. Layouts may be nested to any depth: a limit that a
runtime sets on recursion is left out, and the fault `endlessSize` stands for a derivation that would
recurse without end. -/

namespace ByteLayout.Descriptor

/-- The bytes that an address takes. -/
def pointerSize : Nat := 8

/-- The bytes that a primitive of a kind takes, if the kind fixes it. -/
def kindSize? : Tag → Option Int
  | .float precision => some precision.byteSize
  | .pointer => some pointerSize
  | _ => none

mutual

/-- The size of a descriptor when `ofName` gives the size of a name. -/
def sizeWith (ofName : String → Except Fault (Option Int)) :
    Descriptor → Except Fault (Option Int)
  | .scalar tag size =>
    match size with
    | some n => .ok (some n)
    | none => .ok (kindSize? tag)
  | .struct fields _ size =>
    match size with
    | some n => .ok (some n)
    | none => endWith ofName 0 fields
  | .array _ stride count => .ok (some (stride * count))
  | .pointer _ => .ok (some pointerSize)
  | .ref name => ofName name
  | .foreign datum => .error (.unknown datum)
termination_by structural d => d

/-- Where the last of some fields ends, if all of them have a size; at least `reached`. -/
def endWith (ofName : String → Except Fault (Option Int)) (reached : Int) :
    List (Nat × Descriptor) → Except Fault (Option Int)
  | [] => .ok (some reached)
  | (offset, field) :: rest =>
    match sizeWith ofName field with
    | .error fault => .error fault
    | .ok none => .ok none
    | .ok (some size) => endWith ofName (max reached (offset + size)) rest
termination_by structural fields => fields

end

/-- The size of a name while the sizes of `opened` are being derived; `go` gives the size of its
layout. -/
def sizeOfName (registry : Registry)
    (go : List String → Descriptor → Except Fault (Option Int)) (opened : List String)
    (name : String) : Except Fault (Option Int) :=
  match registry.get? name with
  | none => .error (.unresolved name)
  | some d => if name ∈ opened then .error (.endlessSize name) else go (opened ++ [name]) d

/-- The size of a descriptor inside the layouts of the names `opened`, when at most `names` more of
them can be opened. -/
def sizeAmong (registry : Registry) : Nat → List String → Descriptor → Except Fault (Option Int)
  | 0, opened => sizeWith (sizeOfName registry (fun _ _ => .ok none) opened)
  | names + 1, opened => sizeWith (sizeOfName registry (sizeAmong registry names) opened)

/-- The number of bytes that a descriptor covers, if it can be derived. -/
def byteSize (registry : Option Registry) (d : Descriptor) : Except Fault (Option Int) :=
  match registry with
  | none => sizeWith (fun _ => .ok none) d
  | some registry => sizeAmong registry registry.size [] d

end ByteLayout.Descriptor
