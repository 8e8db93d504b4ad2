import ByteLayout.Proofs.DepthFirstSearch
import Mathlib.Logic.Function.Basic

/-! # Searching with a stack of frames

The search needs no recursion. Every vertex that is being searched has a frame with those of its edges
that are left, the latest vertex on top, and a table holds the least number that each vertex has seen.
A step follows the next edge of the top frame, takes that frame off when it has no edges left, or goes
on to the next vertex to start from. On every graph the steps come to an end, with the components that
the recursive search finds. -/

namespace ByteLayout.Graph

variable {α : Type} [DecidableEq α]

/-- A search with a frame for every vertex that is being searched. -/
structure Machine (α : Type) where
  search : Search α := {}
  /-- The least number that each entered vertex has seen. -/
  lows : α → Nat := fun _ => 0
  /-- The vertices that are being searched with the edges that are left, the latest first. -/
  frames : List (α × List α) := []
  /-- The vertices from which a search has still to start. -/
  starts : List α

namespace Machine

/-- Numbers a vertex, opens it and puts a frame with all its edges on top. -/
def enter (successors : α → List α) (m : Machine α) (v : α) : Machine α :=
  { m with
    search := m.search.enter v
    lows := Function.update m.lows v m.search.next
    frames := (v, successors v) :: m.frames }

/-- The table after the vertex of the top frame, if there is one, has seen a number. -/
def lowered (frames : List (α × List α)) (seen : Nat) (lows : α → Nat) : α → Nat :=
  match frames with
  | [] => lows
  | (u, _) :: _ => Function.update lows u (min (lows u) seen)

/-- Takes the frame of a vertex off. What the vertex has seen is seen from the frame below, and the
component of the vertex is closed if that is nothing before its own number. -/
def leave (m : Machine α) (v : α) (below : List (α × List α)) : Machine α :=
  let lows := lowered below (m.lows v) m.lows
  { m with
    search := if m.search.number? v = some (lows v) then m.search.close v else m.search
    lows
    frames := below }

/-- The next state, unless all is done. -/
def step (successors : α → List α) (m : Machine α) : Option (Machine α) :=
  match m.frames with
  | [] =>
    match m.starts with
    | [] => none
    | v :: starts =>
      match m.search.number? v with
      | some _ => some { m with starts }
      | none => some (enter successors { m with starts } v)
  | (v, []) :: below => some (m.leave v below)
  | (v, w :: edges) :: below =>
    let frames := (v, edges) :: below
    match m.search.number? w with
    | none => some (enter successors { m with frames } w)
    | some n =>
      if w ∈ m.search.stack then some { m with lows := lowered frames n m.lows, frames }
      else some { m with frames }

/-- One state leads to another one. -/
abbrev Steps (successors : α → List α) : Machine α → Machine α → Prop :=
  Relation.ReflTransGen fun m m' => m.step successors = some m'

end Machine

/-- Searching with frames from all vertices comes to an end with some groups. -/
def Finds (successors : α → List α) (vertices : List α) (groups : List (List α)) : Prop :=
  ∃ m, Machine.Steps successors { starts := vertices } m ∧ m.step successors = none ∧
    m.search.found = groups

namespace Machine

variable {successors : α → List α} {vertices active : List α} {s t : Search α} {v w : α}
  {low : Nat} {lows : α → Nat} {below : List (α × List α)} {edges starts : List α}

/-! ## One vertex -/

/-- Frames do what the search of the vertex `v`, which is new in `s`, does: it ends in `t` and reports
`low`. Nothing else changes that was known before. -/
def Carries (successors : α → List α) (s : Search α) (v : α) (low : Nat) (t : Search α) : Prop :=
  ∀ (lows : α → Nat) (below : List (α × List α)) (starts : List α),
    (∀ f ∈ below.head?, (s.number? f.1).isSome = true) →
    ∃ lows', Steps successors (enter successors ⟨s, lows, below, starts⟩ v)
        ⟨t, lows', below, starts⟩ ∧
      ∀ u, (s.number? u).isSome = true → lows' u = lowered below low lows u

/-- Following an edge with frames is inspecting it. -/
theorem steps_inspect {search : α → Search α → Nat × Search α}
    (carries : t.number? w = none → Carries successors t w (search w t).1 (search w t).2)
    (entered : (t.number? v).isSome = true) (own : lows v = low) :
    ∃ lows', Steps successors ⟨t, lows, (v, w :: edges) :: below, starts⟩
        ⟨(inspect search low t w).2, lows', (v, edges) :: below, starts⟩ ∧
      lows' v = (inspect search low t w).1 ∧
      ∀ u, (t.number? u).isSome = true → u ≠ v → lows' u = lows u := by
  unfold inspect
  cases number : t.number? w with
  | none =>
    obtain ⟨lows', steps, kept⟩ := carries number lows ((v, edges) :: below) starts (by simpa)
    refine ⟨lows', .head (by simp [step, number]) steps, ?_, fun u known other => ?_⟩
    · rw [kept v entered]
      simp [lowered, own]
    · rw [kept u known]
      simp [lowered, other]
  | some n =>
    by_cases opened : w ∈ t.stack
    · refine ⟨lowered ((v, edges) :: below) n lows, .single (by simp [step, number, opened]), ?_,
        fun u _ other => ?_⟩
      · simp [lowered, own, opened]
      · simp [lowered, other]
    · exact ⟨lows, by simpa [opened] using .single (by simp [step, number, opened]),
        by simp [own, opened], fun _ _ _ => rfl⟩

/-- Following all edges that are left of the top frame is inspecting them one after the other. -/
theorem steps_foldl_inspect (search : α → Search α → Nat × Search α) {scanned : List α}
    (inv : s.Invariant successors vertices active)
    (scan : Search.Scanned successors vertices active s v scanned low t) (edges : List α)
    (lead : ∀ w ∈ edges, Edge successors v w)
    (explores : ∀ r w, Edge successors v w → r.Invariant successors vertices (v :: active) →
      (s.enter v).Extends r → r.number? w = none →
      Search.Explored successors vertices (v :: active) r w (search w r).1 (search w r).2 ∧
        Carries successors r w (search w r).1 (search w r).2)
    (lows : α → Nat) (own : lows v = low) (below : List (α × List α)) (starts : List α) :
    ∃ lows', Steps successors ⟨t, lows, (v, edges) :: below, starts⟩
        ⟨(edges.foldl (fun acc w => inspect search acc.1 acc.2 w) (low, t)).2, lows',
          (v, []) :: below, starts⟩ ∧
      lows' v = (edges.foldl (fun acc w => inspect search acc.1 acc.2 w) (low, t)).1 ∧
      ∀ u, (s.number? u).isSome = true → u ≠ v → lows' u = lows u := by
  induction edges generalizing scanned low t lows with
  | nil => exact ⟨lows, .refl, own, fun _ _ _ => rfl⟩
  | cons w rest ih =>
    have edge := lead w List.mem_cons_self
    have fresh := explores t w edge scan.invariant scan.ext
    have opened : v ∈ t.stack := scan.invariant.opened v List.mem_cons_self
    have entered : (t.number? v).isSome = true := (scan.invariant.entered v).mpr (Or.inl opened)
    obtain ⟨between, first, own', kept⟩ :=
      steps_inspect (fun new => (fresh new).2) entered own
    have scan' := scan.inspect inv edge fun new => (fresh new).1
    obtain ⟨lows', later, last, kept'⟩ :=
      ih scan' (fun x member => lead x (List.mem_cons_of_mem _ member)) between own'
    refine ⟨lows', first.trans later, last, fun u known other => ?_⟩
    have known' := scan.ext_start.isSome_number? scan.invariant.numbered known
    rw [kept' u known other, kept u known' other]

theorem lowered_congr {lows' : α → Nat}
    (same : ∀ u, (s.number? u).isSome = true → lows' u = lows u)
    (top : ∀ f ∈ below.head?, (s.number? f.1).isSome = true) (low : Nat) {u : α}
    (entered : (s.number? u).isSome = true) :
    lowered below low lows' u = lowered below low lows u := by
  match below, top with
  | [], _ => exact same u entered
  | (v, _) :: _, top =>
    have own : lows' v = lows v := same v (top _ rfl)
    by_cases equal : u = v
    · subst equal
      simp [lowered, own]
    · simp [lowered, equal, same u entered]

/-- Taking off the frame of a vertex whose edges are all followed ends its search. -/
theorem step_leave (fresh : s.number? v = none)
    (scan : Search.Scanned successors vertices active s v (successors v) low t)
    (known : ∀ f ∈ below.head?, (s.number? f.1).isSome = true) (own : lows v = low) :
    step successors ⟨t, lows, (v, []) :: below, starts⟩ =
      some ⟨if low = s.next then t.close v else t, lowered below low lows, below, starts⟩ := by
  have number : t.number? v = some s.next := by
    refine ((scan.ext.number?_iff scan.invariant.numbered).mp ?_).1
    rw [Search.number?_enter, if_pos rfl]
  -- The frame below belongs to a vertex that was entered before, so to another one.
  have kept : lowered below low lows v = low := by
    match below, known with
    | [], _ => exact own
    | (u, _) :: _, known =>
      have other : v ≠ u := by
        rintro rfl
        simp [fresh] at known
      simp [lowered, other, own]
  simp only [step, leave, own, kept, number, Option.some.injEq, eq_comm (a := s.next)]

/-- Frames do what the recursive search of a new vertex does, with enough fuel for all vertices that
are left. -/
theorem carries_explore (closed : Closed successors vertices) {fuel : Nat}
    (inv : s.Invariant successors vertices active) (fresh : s.number? v = none)
    (vertex : v ∈ vertices) (reached : ∀ u ∈ active, Reaches successors u v)
    (enough : vertices.length ≤ fuel + s.next) :
    Carries successors s v (explore successors fuel v s).1 (explore successors fuel v s).2 := by
  -- What an edge leads to is searched with one unit of fuel less, above the frame of `v`.
  induction fuel generalizing active s v with
  | zero =>
    have left := inv.next_lt fresh vertex
    omega
  | succ fuel ih =>
    have explores : ∀ r w, Edge successors v w → r.Invariant successors vertices (v :: active) →
        (s.enter v).Extends r → r.number? w = none →
        Search.Explored successors vertices (v :: active) r w (explore successors fuel w r).1
            (explore successors fuel w r).2 ∧
          Carries successors r w (explore successors fuel w r).1 (explore successors fuel w r).2 := by
      intro r w edge inv' ext fresh'
      have reached' := reaches_of_edge reached edge
      have enough' := ext.enough enough
      have vertex' := closed v vertex w edge
      exact ⟨inv'.explored closed fresh' vertex' reached' enough',
        ih inv' fresh' vertex' reached' enough'⟩
    have start := inv.scanned_nil fresh vertex reached
    have scan := start.foldl_inspect (explore successors fuel) inv (successors v)
      (fun w edge => edge) fun r w edge inv' ext new => (explores r w edge inv' ext new).1
    rw [Search.explore_succ]
    intro lows below starts known
    obtain ⟨lows', follow, own, kept⟩ := steps_foldl_inspect (explore successors fuel) inv start
      (successors v) (fun w edge => edge) explores (Function.update lows v s.next)
      (Function.update_self ..) below starts
    refine ⟨_, follow.tail (step_leave fresh scan known own), fun u entered => ?_⟩
    refine lowered_congr (fun x before => ?_) known _ entered
    have other : x ≠ v := by
      rintro rfl
      simp [fresh] at before
    rw [kept x before other, Function.update_of_ne other]

/-! ## All vertices -/

/-- Frames do what searching from some vertices one after the other does. -/
theorem steps_starts (closed : Closed successors vertices)
    (inv : s.Invariant successors vertices []) (lows : α → Nat) (among : starts ⊆ vertices) :
    ∃ lows', Steps successors ⟨s, lows, [], starts⟩
      ⟨starts.foldl (fun s v =>
        match s.number? v with
        | some _ => s
        | none => (explore successors vertices.length v s).2) s, lows', [], []⟩ := by
  induction starts generalizing s lows with
  | nil => exact ⟨lows, .refl⟩
  | cons v rest ih =>
    have vertex := among List.mem_cons_self
    have later : rest ⊆ vertices := fun x member => among (List.mem_cons_of_mem _ member)
    rw [List.foldl_cons]
    cases number : s.number? v with
    | some n =>
      obtain ⟨lows', steps⟩ := ih inv lows later
      exact ⟨lows', .head (by simp [step, number]) steps⟩
    | none =>
      have reached : ∀ u ∈ ([] : List α), Reaches successors u v :=
        fun u member => absurd member List.not_mem_nil
      have enough := Nat.le_add_right vertices.length s.next
      obtain ⟨between, first, -⟩ :=
        carries_explore closed inv number vertex reached enough lows [] rest (by simp)
      obtain ⟨lows', steps⟩ :=
        ih (inv.explored closed number vertex reached enough).invariant between later
      exact ⟨lows', .head (by simp [step, number]) (first.trans steps)⟩

/-- There is one state only in which the steps from another one end. -/
theorem Steps.unique {m a b : Machine α} (first : Steps successors m a)
    (second : Steps successors m b) (doneA : a.step successors = none)
    (doneB : b.step successors = none) : a = b := by
  have deterministic : Relator.RightUnique fun m m' : Machine α => m.step successors = some m' :=
    fun m a b toA toB => Option.some.inj (toA.symm.trans toB)
  have stuck {x y : Machine α} (done : x.step successors = none) (steps : Steps successors x y) :
      x = y := by
    rcases steps.cases_head with same | ⟨next, taken, -⟩
    · exact same
    · rw [done] at taken
      cases taken
  rcases first.total_of_right_unique deterministic second with forth | back
  · exact stuck doneA forth
  · exact (stuck doneB back).symm

end Machine

/-- On every graph whose edges lead to vertices, searching with frames comes to an end, with the
components that the recursive search finds and with nothing else. -/
theorem finds_iff {successors : α → List α} {vertices : List α} {groups : List (List α)}
    (closed : Closed successors vertices) :
    Finds successors vertices groups ↔ groups = components vertices successors := by
  obtain ⟨lows, steps⟩ := Machine.steps_starts closed Search.invariant_empty (fun _ => 0)
    (List.Subset.refl vertices)
  constructor
  · rintro ⟨m, other, done, rfl⟩
    rw [other.unique steps done rfl]
    rfl
  · rintro rfl
    exact ⟨_, steps, rfl, rfl⟩

end ByteLayout.Graph
