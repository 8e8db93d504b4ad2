/-! # Strongly connected components

One depth-first search finds the strongly connected components of a graph. Every vertex is numbered
when the search enters it and put onto a stack. The search of a vertex yields the least number on
the stack that it can see; where that is the vertex's own number, the vertex and everything above it
on the stack form a component. Components are found successors first. -/

namespace ByteLayout.Graph

variable {α : Type} [DecidableEq α]

/-- How far a search has come. -/
structure Search (α : Type) where
  /-- The vertices entered so far with their numbers, the latest first. -/
  numbers : List (α × Nat) := []
  /-- The entered vertices whose component is still open, the latest first. -/
  stack : List α := []
  /-- The components found so far, in order. -/
  found : List (List α) := []
  deriving Inhabited

namespace Search

/-- The number of an entered vertex. -/
def number? (s : Search α) (v : α) : Option Nat := s.numbers.lookup v

/-- The number that the next vertex gets. -/
def next (s : Search α) : Nat := s.numbers.length

/-- Numbers a vertex and opens it. -/
def enter (s : Search α) (v : α) : Search α :=
  { s with numbers := (v, s.next) :: s.numbers, stack := v :: s.stack }

/-- Closes the component of a vertex: it and everything above it on the stack. -/
def close (s : Search α) (v : α) : Search α :=
  { s with
    stack := (s.stack.dropWhile (· ≠ v)).drop 1
    found := s.found ++ [s.stack.takeWhile (· ≠ v) ++ [v]] }

end Search

/-- Looks at one edge to `w`, with `low` the least number seen so far: a new vertex is searched by
`explore`, an open one is seen, and a closed one does not count. -/
def inspect (explore : α → Search α → Nat × Search α) (low : Nat) (s : Search α) (w : α) :
    Nat × Search α :=
  match s.number? w with
  | none =>
    let (seen, s') := explore w s
    (min low seen, s')
  | some n => if w ∈ s.stack then (min low n, s) else (low, s)

/-- Searches a new vertex, with at most `fuel` vertices entered one inside the other. Gives the least
number of an open vertex that was seen. -/
def explore (successors : α → List α) : Nat → α → Search α → Nat × Search α
  | 0, _, s => (s.next, s)
  | fuel + 1, v, s =>
    let number := s.next
    let (low, s') := (successors v).foldl
      (fun acc w => inspect (explore successors fuel) acc.1 acc.2 w) (number, s.enter v)
    if low = number then (low, s'.close v) else (low, s')

/-- The strongly connected components of a graph, successors first. Members of a component stand in
the order in which they leave the stack. -/
def components (vertices : List α) (successors : α → List α) : List (List α) :=
  let search := vertices.foldl
    (fun s v =>
      match s.number? v with
      | some _ => s
      | none => (explore successors vertices.length v s).2) ({} : Search α)
  search.found

end ByteLayout.Graph
