/-! # Paths

A path names bytes that can be reached from a value. Its hops are taken from the value outward: the
hop at depth `d` is a byte offset inside the object that is reached after `d` dereferences, and the
wildcard hop stands for every offset at its depth. A path has at least one hop.

Paths are ordered hop by hop, the wildcard before every offset and a path before its extensions. -/

namespace ByteLayout

/-- One step of a path: a byte offset, or every offset at once. -/
inductive Hop where
  | any
  | byte (offset : Nat)
  deriving DecidableEq, Repr, Inhabited

namespace Hop

/-- The number that is written for a hop; the wildcard is written as minus one. -/
def toInt : Hop → Int
  | .any => -1
  | .byte n => n

/-- The hop that a number stands for. Numbers below minus one stand for none. -/
def ofInt? (n : Int) : Option Hop :=
  if n < -1 then none else if n = -1 then some .any else some (.byte n.toNat)

/-- The hop `n` bytes further on; from the wildcard, offset `n` itself. -/
def shift (n : Nat) : Hop → Hop
  | .any => .byte n
  | .byte k => .byte (k + n)

/-- Whether a hop is accepted where a pattern asks for `pattern`. -/
def fits (hop pattern : Hop) : Bool := pattern = .any || pattern = hop

end Hop

/-- A chain of hops that starts at a value. -/
structure Path where
  first : Hop
  rest : List Hop
  deriving DecidableEq, Repr, Inhabited

namespace Path

/-- The path of the value itself. -/
def root : Path := ⟨.any, []⟩

/-- All hops, the first included. -/
def hops (p : Path) : List Hop := p.first :: p.rest

/-- The number of dereferences between the value and the bytes that the path names. -/
def depth (p : Path) : Nat := p.rest.length

/-- The number of hops. -/
def length (p : Path) : Nat := p.hops.length

/-- The last hop. -/
def last (p : Path) : Hop := p.rest.getLastD p.first

/-- The path behind one more pointer. -/
def behindPointer (p : Path) : Path := ⟨.any, p.hops⟩

/-- The path with one more hop, into the pointee of the object that it names. -/
def append (p : Path) (hop : Hop) : Path := ⟨p.first, p.rest ++ [hop]⟩

/-- The path without its last hop; a path of one hop is its own parent. -/
def parent (p : Path) : Path := ⟨p.first, p.rest.dropLast⟩

/-- The path `n` bytes further on at its own depth. -/
def shiftLast (p : Path) (n : Nat) : Path :=
  if p.rest.isEmpty then ⟨p.first.shift n, []⟩ else p.parent.append (p.last.shift n)

/-- Whether a path is a proper prefix of another one, so that it names an object on the way. -/
def isAncestorOf (p q : Path) : Bool :=
  p.first = q.first && p.rest.isPrefixOf q.rest && p.rest.length < q.rest.length

/-- The proper prefixes of a path, the shortest first. -/
def ancestors (p : Path) : List Path :=
  (List.range p.rest.length).map fun n => ⟨p.first, p.rest.take n⟩

/-- Whether two lists of hops have the same length and each hop fits its pattern. -/
def hopsFit : List Hop → List Hop → Bool
  | [], [] => true
  | hop :: hops, pattern :: patterns => hop.fits pattern && hopsFit hops patterns
  | _, _ => false

/-- Whether a path is one of those that a path with wildcards stands for. -/
def fits (p pattern : Path) : Bool := hopsFit p.hops pattern.hops

/-- The largest number among the hops. -/
def maxOffset (p : Path) : Int := p.rest.foldl (fun m hop => max m hop.toInt) p.first.toInt

/-- The order of two lists of hops. -/
def compareHops : List Hop → List Hop → Ordering
  | [], [] => .eq
  | [], _ :: _ => .lt
  | _ :: _, [] => .gt
  | a :: as, b :: bs => (compare a.toInt b.toInt).then (compareHops as bs)

/-- The order of two paths. -/
def compare (p q : Path) : Ordering := compareHops p.hops q.hops

/-- Whether `p` does not come after `q`. -/
def le (p q : Path) : Bool := p.compare q != .gt

/-- Paths in order. -/
def sort (paths : List Path) : List Path := paths.mergeSort le

/-- The written form of a path. -/
def render (p : Path) : String :=
  "[" ++ ",".intercalate (p.hops.map fun hop => toString hop.toInt) ++ "]"

instance : ToString Path := ⟨render⟩

/-- One step of an access chain: the wildcard step dereferences, an offset moves on. -/
def follow (p : Path) : Hop → Path
  | .any => p.append (.byte 0)
  | .byte n => p.shiftLast n

/-- The path that an access chain reaches from the value. -/
def ofAccessChain (steps : List Hop) : Path := steps.foldl follow root

end Path

end ByteLayout
