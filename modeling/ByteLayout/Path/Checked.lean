import ByteLayout.Datum
import ByteLayout.Path.Basic

/-! # Paths from unchecked input

Elements of a path are integers, none below minus one, and a path has at least one of them. The
operations of this module take arbitrary input and report the first element that breaks the rule
together with the hops it was found in. -/

namespace ByteLayout.Path

/-- The ways in which input fails to be a path, or a path to be moved as asked. -/
inductive Fault where
  | noHops
  | notInteger (element : Datum) (hops : List Datum)
  | belowWildcard (element : Int) (hops : List Datum)
  | negativeShift (offset : Int) (path : Path)
  | negativeBase (offset : Int)
  | onlyHop (path : Path)
  | outOfRange (index : Int) (path : Path)

/-- Hops as untyped data. -/
def data (hops : List Hop) : List Datum := hops.map fun hop => .int hop.toInt

namespace Fault

/-- The wording of a fault. -/
def message : Fault → String
  | .noHops => "a path needs at least the root hop"
  | .notInteger element _ => s!"path element {element.render} is not an integer"
  | .belowWildcard element _ => s!"path element {element} is below -1"
  | .negativeShift offset _ => s!"field offset {offset} is negative"
  | .negativeBase offset => s!"base offset {offset} is negative"
  | .onlyHop _ => "cannot strip the only hop of a path"
  | .outOfRange .. => "tuple index out of range"

/-- The hops in which a fault was found. -/
def hops : Fault → List Datum
  | .noHops => []
  | .notInteger _ hops => hops
  | .belowWildcard _ hops => hops
  | .negativeShift _ path => data path.hops
  | .negativeBase offset => [.int offset]
  | .onlyHop path => data path.hops
  | .outOfRange _ path => data path.hops

end Fault

/-- The hop that a datum stands for; `hops` is what a fault reports. -/
def checkHop (hops : List Datum) : Datum → Except Fault Hop
  | .int n =>
    match Hop.ofInt? n with
    | some hop => .ok hop
    | none => .error (.belowWildcard n hops)
  | element => .error (.notInteger element hops)

/-- The path with the given elements. -/
def ofData (elements : List Datum) : Except Fault Path :=
  match elements with
  | [] => .error .noHops
  | element :: more => do
    let first ← checkHop elements element
    let rest ← more.mapM (checkHop elements)
    return ⟨first, rest⟩

/-- The path that an unchecked access chain reaches. -/
def ofChainData (steps : List Datum) : Except Fault Path := do
  let hops ← steps.mapM fun step => checkHop [step] step
  return ofAccessChain hops

/-- The path with `rest` behind a first hop that is given by its number. -/
def withFirst (n : Int) (rest : List Hop) : Except Fault Path :=
  match Hop.ofInt? n with
  | some hop => .ok ⟨hop, rest⟩
  | none => .error (.belowWildcard n (.int n :: data rest))

/-- The path with one more, unchecked hop. -/
def appendDatum (p : Path) (element : Datum) : Except Fault Path := do
  let hop ← checkHop (data p.hops ++ [element]) element
  return p.append hop

/-- The path `n` bytes further on at its own depth; moving back is refused. -/
def shiftLastBy (p : Path) (n : Int) : Except Fault Path :=
  if n < 0 then .error (.negativeShift n p) else .ok (p.shiftLast n.toNat)

/-- The path with `delta` added to its first hop; a wildcard stays as it is. -/
def rebaseFirst (p : Path) (delta : Int) : Except Fault Path :=
  match p.first with
  | .any => .ok p
  | .byte n => withFirst (n + delta) p.rest

/-- The path without its first hop. -/
def stripFirst (p : Path) : Except Fault Path :=
  match p.rest with
  | [] => .error (.onlyHop p)
  | hop :: rest => .ok ⟨hop, rest⟩

/-- The hop with the given index; a negative index counts from the end. -/
def hopAt (p : Path) (index : Int) : Except Fault Hop :=
  let position := if index < 0 then p.length + index else index
  if position < 0 then .error (.outOfRange index p)
  else
    match p.hops[position.toNat]? with
    | some hop => .ok hop
    | none => .error (.outOfRange index p)

end ByteLayout.Path
