import ByteLayout.Graph.Components
import Mathlib.Data.List.Nodup
import Mathlib.Data.List.Perm.Subperm
import Mathlib.Logic.Relation

/-! # One search finds all components

The search of a vertex is over when all its edges are inspected. At any time the open vertices lie
on the stack in the order of their numbers; each of them reaches those above it, and reaches a
vertex whose search is not over. The least number seen tells whether anything above a vertex leads
below it. If not, everything above it on the stack is its component, and whatever leads out of the
component was found before. -/

namespace ByteLayout.Graph

variable {α : Type}

/-- There is an edge from `u` to `v`. -/
def Edge (successors : α → List α) (u v : α) : Prop := v ∈ successors u

/-- There is a way from `u` to `v`, which may be empty. -/
abbrev Reaches (successors : α → List α) : α → α → Prop :=
  Relation.ReflTransGen (Edge successors)

/-- The edges of vertices lead to vertices. -/
def Closed (successors : α → List α) (vertices : List α) : Prop :=
  ∀ u ∈ vertices, ∀ v, Edge successors u v → v ∈ vertices

/-- A group holds, with each of its vertices, exactly those that it reaches and is reached by. -/
def StronglyConnected (successors : α → List α) (group : List α) : Prop :=
  ∀ u ∈ group, ∀ v, v ∈ group ↔ Reaches successors u v ∧ Reaches successors v u

/-- No edge leads from a group to a later one. -/
def SuccessorsFirst (successors : α → List α) (groups : List (List α)) : Prop :=
  ∀ before group after, groups = before ++ group :: after →
    ∀ u ∈ group, ∀ v, Edge successors u v → v ∈ before.flatten ∨ v ∈ group

/-- The groups hold every vertex once, they are strongly connected, and successors come first. -/
structure Decomposes (successors : α → List α) (vertices : List α) (groups : List (List α)) :
    Prop where
  nodup : groups.flatten.Nodup
  covers : ∀ v, v ∈ groups.flatten ↔ v ∈ vertices
  strong : ∀ group ∈ groups, StronglyConnected successors group
  order : SuccessorsFirst successors groups

/-- A group may come last if its edges lead to it and to earlier groups. -/
theorem SuccessorsFirst.append {successors : α → List α} {groups : List (List α)} {last : List α}
    (first : SuccessorsFirst successors groups)
    (leads : ∀ u ∈ last, ∀ v, Edge successors u v → v ∈ groups.flatten ∨ v ∈ last) :
    SuccessorsFirst successors (groups ++ [last]) := by
  intro before group after split
  rcases List.eq_nil_or_concat after with rfl | ⟨more, final, rfl⟩
  · obtain ⟨rfl, same⟩ := List.append_inj' split rfl
    rw [List.singleton_inj] at same
    exact same ▸ leads
  · rw [List.concat_eq_append, ← List.cons_append, ← List.append_assoc] at split
    obtain ⟨rfl, -⟩ := List.append_inj' split rfl
    exact first before group more rfl

/-- What a group reaches lies in it or in earlier groups. -/
theorem SuccessorsFirst.mem_of_reaches {successors : α → List α}
    {groups before after : List (List α)} {group : List α} {u v : α}
    (first : SuccessorsFirst successors groups) (split : groups = before ++ group :: after)
    (member : u ∈ group) (way : Reaches successors u v) :
    v ∈ before.flatten ∨ v ∈ group := by
  induction way with
  | refl => exact Or.inr member
  | tail _ edge ih =>
    rcases ih with earlier | same
    · obtain ⟨other, among, inside⟩ := List.mem_flatten.mp earlier
      obtain ⟨start, between, rfl⟩ := List.append_of_mem among
      rw [List.append_assoc, List.cons_append] at split
      have reached := first start other _ split _ inside _ edge
      rw [List.flatten_append, List.flatten_cons, ← List.append_assoc]
      exact Or.inl (List.mem_append_left _ (List.mem_append.mpr reached))
    · exact first before group after split _ same _ edge

theorem reaches_of_edge {successors : α → List α} {active : List α} {v w : α}
    (reached : ∀ u ∈ active, Reaches successors u v) (edge : Edge successors v w) :
    ∀ u ∈ v :: active, Reaches successors u w := by
  intro u among
  rcases List.mem_cons.mp among with rfl | among
  · exact .single edge
  · exact (reached u among).tail edge

namespace Search

variable {successors : α → List α} {vertices active : List α} {s t r : Search α} {u v w : α}
  {n : Nat}

/-! ## Later states -/

/-- `t` is a later state of the search than `s`. -/
structure Extends (s t : Search α) : Prop where
  numbers : s.numbers <:+ t.numbers
  stack : s.stack <:+ t.stack
  found : s.found <+: t.found

theorem Extends.refl (s : Search α) : s.Extends s :=
  ⟨List.suffix_refl _, List.suffix_refl _, List.prefix_refl _⟩

theorem Extends.trans (st : s.Extends t) (tr : t.Extends r) : s.Extends r :=
  ⟨st.numbers.trans tr.numbers, st.stack.trans tr.stack, st.found.trans tr.found⟩

theorem extends_enter (s : Search α) (v : α) : s.Extends (s.enter v) :=
  ⟨List.suffix_cons _ _, List.suffix_cons _ _, List.prefix_refl _⟩

theorem Extends.next_le (ext : s.Extends t) : s.next ≤ t.next := ext.numbers.length_le

/-- Entering a vertex takes one unit of fuel. -/
theorem Extends.enough {bound fuel : Nat} (ext : (s.enter v).Extends t)
    (enough : bound ≤ fuel + 1 + s.next) : bound ≤ fuel + t.next := by
  have entered := ext.next_le
  have grown : (s.enter v).next = s.next + 1 := rfl
  omega

variable [DecidableEq α]

/-! ## Numbers -/

/-- Vertices with their numbers, the latest first: none occurs twice, and the number of each is the
number of those entered before it. -/
def Numbered : List (α × Nat) → Prop
  | [] => True
  | e :: earlier => e.2 = earlier.length ∧ earlier.lookup e.1 = none ∧ Numbered earlier

theorem Numbered.lookup_lt {entered : List (α × Nat)} (numbered : Numbered entered)
    (found : entered.lookup v = some n) : n < entered.length := by
  induction entered with
  | nil => simp at found
  | cons e earlier ih =>
    obtain ⟨number, -, rest⟩ := numbered
    rw [List.lookup_cons] at found
    split at found
    · simp only [Option.some.injEq] at found
      simp [← found, number]
    · exact Nat.lt_succ_of_lt (ih rest found)

/-- The numbers below the count of some vertices are the numbers of these, whatever is entered
later. -/
theorem Numbered.lookup_iff {later earlier : List (α × Nat)}
    (numbered : Numbered (later ++ earlier)) :
    earlier.lookup v = some n ↔ (later ++ earlier).lookup v = some n ∧ n < earlier.length := by
  induction later with
  | nil =>
    simp only [List.nil_append] at numbered ⊢
    exact ⟨fun found => ⟨found, numbered.lookup_lt found⟩, And.left⟩
  | cons e later ih =>
    obtain ⟨number, fresh, rest⟩ := numbered
    change e.2 = (later ++ earlier).length at number
    change (later ++ earlier).lookup e.1 = none at fresh
    rw [ih rest, List.cons_append, List.lookup_cons]
    split
    · next same =>
      rw [eq_of_beq same, fresh, number, List.length_append]
      simp only [reduceCtorEq, false_and, Option.some.injEq, false_iff]
      omega
    · rfl

theorem isSome_lookup_iff {entered : List (α × Nat)} :
    (entered.lookup v).isSome = true ↔ v ∈ entered.map Prod.fst := by
  induction entered with
  | nil => simp
  | cons e earlier ih =>
    rw [List.lookup_cons, List.map_cons, List.mem_cons, ← ih]
    split
    · next same => simp [eq_of_beq same]
    · next other => simp [show v ≠ e.1 from fun same => by simp [same] at other]

theorem Numbered.nodup {entered : List (α × Nat)} (numbered : Numbered entered) :
    (entered.map Prod.fst).Nodup := by
  induction entered with
  | nil => simp
  | cons e earlier ih =>
    obtain ⟨-, fresh, rest⟩ := numbered
    refine List.nodup_cons.mpr ⟨fun member => ?_, ih rest⟩
    rw [← isSome_lookup_iff, fresh] at member
    cases member

/-! ## What holds at any time -/

/-- What holds while the vertices of `active` are being searched. -/
structure Invariant (successors : α → List α) (vertices active : List α) (s : Search α) : Prop where
  numbered : Numbered s.numbers
  known : ∀ v, (s.number? v).isSome = true → v ∈ vertices
  entered : ∀ v, (s.number? v).isSome = true ↔ v ∈ s.stack ∨ v ∈ s.found.flatten
  nodup : (s.stack ++ s.found.flatten).Nodup
  /-- What is being searched is open. -/
  opened : ∀ v ∈ active, v ∈ s.stack
  /-- All edges of an open vertex whose search is over have been followed. -/
  searched : ∀ u ∈ s.stack, u ∉ active → ∀ v, Edge successors u v → (s.number? v).isSome = true
  /-- An open vertex reaches those above it. -/
  upward : s.stack.Pairwise fun later earlier => Reaches successors earlier later
  /-- An open vertex reaches one that is being searched. -/
  back : ∀ u ∈ s.stack, ∃ v ∈ active, Reaches successors u v
  strong : ∀ group ∈ s.found, StronglyConnected successors group
  order : SuccessorsFirst successors s.found

/-- Later states know the earlier numbers, and no other numbers that are as low. -/
theorem Extends.number?_iff (ext : s.Extends t) (numbered : Numbered t.numbers) :
    s.number? v = some n ↔ t.number? v = some n ∧ n < s.next := by
  obtain ⟨later, same⟩ := ext.numbers
  unfold number? next
  rw [← same] at numbered ⊢
  exact numbered.lookup_iff

theorem Extends.isSome_number? (ext : s.Extends t) (numbered : Numbered t.numbers)
    (entered : (s.number? v).isSome = true) : (t.number? v).isSome = true := by
  obtain ⟨n, found⟩ := Option.isSome_iff_exists.mp entered
  rw [((ext.number?_iff numbered).mp found).1]
  rfl

theorem number?_enter (s : Search α) (v w : α) :
    (s.enter v).number? w = if w = v then some s.next else s.number? w := by
  change ((v, s.next) :: s.numbers).lookup w = _
  rw [List.lookup_cons]
  by_cases same : w = v
  · simp [same]
  · simp [same, beq_eq_false_iff_ne.mpr same, number?]

/-- Closing a component takes a vertex and what lies above it from the stack. -/
theorem close_eq {above below : List α} (stack : t.stack = above ++ v :: below)
    (absent : v ∉ above) :
    t.close v = ⟨t.numbers, below, t.found ++ [above ++ [v]]⟩ := by
  have higher : ∀ u ∈ above, decide (u ≠ v) = true := by
    intro u member
    exact decide_eq_true fun same => absent (same ▸ member)
  unfold close
  rw [stack, List.takeWhile_append_of_pos higher, List.dropWhile_append_of_pos higher]
  simp

namespace Invariant

/-- Nothing leads out of the components that were found. -/
theorem found_of_reaches (inv : s.Invariant successors vertices active)
    (member : u ∈ s.found.flatten) (way : Reaches successors u v) : v ∈ s.found.flatten := by
  obtain ⟨group, among, inside⟩ := List.mem_flatten.mp member
  obtain ⟨before, after, split⟩ := List.append_of_mem among
  have reached := inv.order.mem_of_reaches split inside way
  rw [split, List.flatten_append, List.flatten_cons, ← List.append_assoc]
  exact List.mem_append_left _ (List.mem_append.mpr reached)

/-- There are vertices left to enter as long as one is new. -/
theorem next_lt (inv : s.Invariant successors vertices active) (fresh : s.number? v = none)
    (vertex : v ∈ vertices) : s.next < vertices.length := by
  have distinct : (v :: s.numbers.map Prod.fst).Nodup := by
    refine List.nodup_cons.mpr ⟨fun member => ?_, inv.numbered.nodup⟩
    rw [← isSome_lookup_iff] at member
    change (s.number? v).isSome = true at member
    rw [fresh] at member
    cases member
  have among : v :: s.numbers.map Prod.fst ⊆ vertices := by
    intro w member
    rcases List.mem_cons.mp member with rfl | member
    · exact vertex
    · exact inv.known w (isSome_lookup_iff.mpr member)
  have length := (distinct.subperm among).length_le
  simpa [next, Nat.succ_le_iff] using length

end Invariant

/-! ## Searching the edges of one vertex -/

/-- What is known of the vertex `v`, which was new in `s`, when the edges to `scanned` have been
followed and `low` is the least number seen. -/
structure Scanned (successors : α → List α) (vertices active : List α) (s : Search α) (v : α)
    (scanned : List α) (low : Nat) (t : Search α) : Prop where
  invariant : t.Invariant successors vertices (v :: active)
  ext : (s.enter v).Extends t
  entered : ∀ w ∈ scanned, (t.number? w).isSome = true
  low_le : low ≤ s.next
  seen : low < s.next → ∃ u ∈ s.stack, s.number? u = some low ∧ Reaches successors v u
  least : ∀ u ∈ t.stack, u ∉ s.stack → ∀ w, Edge successors u w → (u = v → w ∈ scanned) →
    w ∈ s.stack → ∀ n, s.number? w = some n → low ≤ n

/-- What is known when the search of the vertex `v`, which was new in `s`, is over. -/
structure Explored (successors : α → List α) (vertices active : List α) (s : Search α) (v : α)
    (low : Nat) (t : Search α) : Prop where
  invariant : t.Invariant successors vertices active
  ext : s.Extends t
  entered : (t.number? v).isSome = true
  low_le : low ≤ s.next
  seen : low < s.next → ∃ u ∈ s.stack, s.number? u = some low ∧ Reaches successors v u
  least : ∀ u ∈ t.stack, u ∉ s.stack → ∀ w, Edge successors u w → w ∈ s.stack →
    ∀ n, s.number? w = some n → low ≤ n

/-- A new vertex that everything being searched reaches may be entered. -/
theorem Invariant.enter (inv : s.Invariant successors vertices active) (fresh : s.number? v = none)
    (vertex : v ∈ vertices) (reached : ∀ u ∈ active, Reaches successors u v) :
    (s.enter v).Invariant successors vertices (v :: active) := by
  have absent : v ∉ s.stack ++ s.found.flatten := by
    rw [List.mem_append, ← inv.entered v, fresh]
    exact Bool.false_ne_true
  constructor
  case numbered => exact ⟨rfl, fresh, inv.numbered⟩
  case known =>
    intro w
    rw [number?_enter]
    split
    · next same => exact fun _ => same ▸ vertex
    · exact inv.known w
  case entered =>
    intro w
    rw [number?_enter]
    change _ ↔ w ∈ v :: s.stack ∨ w ∈ s.found.flatten
    rw [List.mem_cons, or_assoc, ← inv.entered w]
    split <;> simp_all
  case nodup => exact List.nodup_cons.mpr ⟨absent, inv.nodup⟩
  case opened =>
    intro u member
    rcases List.mem_cons.mp member with rfl | member
    · exact List.mem_cons_self
    · exact List.mem_cons_of_mem _ (inv.opened u member)
  case searched =>
    intro u member inactive w edge
    rw [List.mem_cons, not_or] at inactive
    rcases List.mem_cons.mp member with same | member
    · exact absurd same inactive.1
    · have entered := inv.searched u member inactive.2 w edge
      rw [number?_enter]
      split
      · rfl
      · exact entered
  case upward =>
    refine List.pairwise_cons.mpr ⟨fun u member => ?_, inv.upward⟩
    obtain ⟨searching, among, way⟩ := inv.back u member
    exact way.trans (reached searching among)
  case back =>
    intro u member
    rcases List.mem_cons.mp member with rfl | member
    · exact ⟨u, List.mem_cons_self, .refl⟩
    · obtain ⟨searching, among, way⟩ := inv.back u member
      exact ⟨searching, List.mem_cons_of_mem _ among, way⟩
  case strong => exact inv.strong
  case order => exact inv.order

/-- At first no edge is followed. -/
theorem Invariant.scanned_nil (inv : s.Invariant successors vertices active)
    (fresh : s.number? v = none) (vertex : v ∈ vertices)
    (reached : ∀ u ∈ active, Reaches successors u v) :
    Scanned successors vertices active s v [] s.next (s.enter v) where
  invariant := inv.enter fresh vertex reached
  ext := .refl _
  entered := fun _ member => absurd member List.not_mem_nil
  low_le := Nat.le_refl _
  seen := fun below => absurd below (Nat.lt_irrefl _)
  least := by
    intro u member new w _ scanned
    rcases List.mem_cons.mp member with same | old
    · exact absurd (scanned same) List.not_mem_nil
    · exact absurd old new

namespace Scanned

variable {scanned : List α} {low : Nat}

theorem ext_start (scan : Scanned successors vertices active s v scanned low t) : s.Extends t :=
  (extends_enter s v).trans scan.ext

/-- A number that is known before the vertex is entered. -/
theorem number?_iff (scan : Scanned successors vertices active s v scanned low t) :
    s.number? w = some n ↔ t.number? w = some n ∧ n < s.next :=
  scan.ext_start.number?_iff scan.invariant.numbered

/-- What is open with a number below that of the vertex was open before. -/
theorem mem_stack_of_lt (inv : s.Invariant successors vertices active)
    (scan : Scanned successors vertices active s v scanned low t) (member : w ∈ t.stack)
    (found : t.number? w = some n) (below : n < s.next) : w ∈ s.stack := by
  have before : s.number? w = some n := scan.number?_iff.mpr ⟨found, below⟩
  have entered : (s.number? w).isSome = true := by
    rw [before]
    rfl
  refine ((inv.entered w).mp entered).resolve_right fun closed => ?_
  obtain ⟨more, same⟩ := scan.ext_start.found
  refine List.disjoint_of_nodup_append scan.invariant.nodup member ?_
  rw [← same, List.flatten_append]
  exact List.mem_append_left _ closed

/-- An edge to a new vertex is followed by searching that vertex. -/
theorem followed (inv : s.Invariant successors vertices active)
    (scan : Scanned successors vertices active s v scanned low t) (edge : Edge successors v w)
    (fresh : t.number? w = none) {seen : Nat}
    (explored : Explored successors vertices (v :: active) t w seen r) :
    Scanned successors vertices active s v (scanned ++ [w]) (min low seen) r where
  invariant := explored.invariant
  ext := scan.ext.trans explored.ext
  entered := by
    intro x member
    rcases List.mem_append.mp member with old | new
    · exact explored.ext.isSome_number? explored.invariant.numbered (scan.entered x old)
    · rw [List.mem_singleton.mp new]
      exact explored.entered
  low_le := Nat.le_trans (Nat.min_le_left _ _) scan.low_le
  seen := by
    intro below
    rcases Nat.lt_or_ge seen low with lower | higher
    · rw [Nat.min_eq_right (Nat.le_of_lt lower)] at below ⊢
      have started : s.next ≤ t.next := scan.ext_start.next_le
      obtain ⟨u, member, found, way⟩ := explored.seen (Nat.lt_of_lt_of_le below started)
      exact ⟨u, scan.mem_stack_of_lt inv member found below, scan.number?_iff.mpr ⟨found, below⟩,
        .head edge way⟩
    · rw [Nat.min_eq_left higher] at below ⊢
      exact scan.seen below
  least := by
    intro u member new x leads followed old n found
    have found' := (scan.number?_iff.mp found).1
    by_cases inner : u ∈ t.stack
    · refine Nat.le_trans (Nat.min_le_left _ _) (scan.least u inner new x leads ?_ old n found)
      intro same
      rcases List.mem_append.mp (followed same) with earlier | last
      · exact earlier
      · -- What was new just now was not open before.
        rw [List.mem_singleton.mp last, fresh] at found'
        cases found'
    · have opened : x ∈ t.stack := scan.ext_start.stack.subset old
      have least := explored.least u member inner x leads opened n found'
      exact Nat.le_trans (Nat.min_le_right _ _) least

/-- An edge to an open vertex is followed by seeing its number. -/
theorem sighted (inv : s.Invariant successors vertices active)
    (scan : Scanned successors vertices active s v scanned low t) (edge : Edge successors v w)
    (opened : w ∈ t.stack) (number : t.number? w = some n) :
    Scanned successors vertices active s v (scanned ++ [w]) (min low n) t where
  invariant := scan.invariant
  ext := scan.ext
  entered := by
    intro x member
    rcases List.mem_append.mp member with old | new
    · exact scan.entered x old
    · rw [List.mem_singleton.mp new, number]
      rfl
  low_le := Nat.le_trans (Nat.min_le_left _ _) scan.low_le
  seen := by
    intro below
    rcases Nat.lt_or_ge n low with lower | higher
    · rw [Nat.min_eq_right (Nat.le_of_lt lower)] at below ⊢
      exact ⟨w, scan.mem_stack_of_lt inv opened number below,
        scan.number?_iff.mpr ⟨number, below⟩, .single edge⟩
    · rw [Nat.min_eq_left higher] at below ⊢
      exact scan.seen below
  least := by
    intro u member new x leads followed old m found
    by_cases last : u = v ∧ x = w
    · have found' := (scan.number?_iff.mp found).1
      rw [last.2, number, Option.some.injEq] at found'
      exact found' ▸ Nat.min_le_right _ _
    · refine Nat.le_trans (Nat.min_le_left _ _) (scan.least u member new x leads ?_ old m found)
      intro same
      rcases List.mem_append.mp (followed same) with earlier | latest
      · exact earlier
      · exact absurd ⟨same, List.mem_singleton.mp latest⟩ last

/-- An edge to a vertex whose component was found does not count. -/
theorem passed (scan : Scanned successors vertices active s v scanned low t)
    (closed : w ∉ t.stack) (number : t.number? w = some n) :
    Scanned successors vertices active s v (scanned ++ [w]) low t where
  invariant := scan.invariant
  ext := scan.ext
  entered := by
    intro x member
    rcases List.mem_append.mp member with old | new
    · exact scan.entered x old
    · rw [List.mem_singleton.mp new, number]
      rfl
  low_le := scan.low_le
  seen := scan.seen
  least := by
    intro u member new x leads followed old m found
    refine scan.least u member new x leads ?_ old m found
    intro same
    rcases List.mem_append.mp (followed same) with earlier | latest
    · exact earlier
    · exact absurd (List.mem_singleton.mp latest ▸ scan.ext_start.stack.subset old) closed

/-- Where the vertex stands on the stack when its edges are followed. -/
theorem exists_above (scan : Scanned successors vertices active s v scanned low t) :
    ∃ above, t.stack = above ++ v :: s.stack ∧ v ∉ above := by
  obtain ⟨above, same⟩ := scan.ext.stack
  refine ⟨above, same.symm, fun member => ?_⟩
  have nodup := (List.nodup_append.mp scan.invariant.nodup).1
  rw [← same] at nodup
  exact List.disjoint_of_nodup_append nodup member List.mem_cons_self

/-- Everything that is open reaches the vertex. -/
theorem reaches_vertex (scan : Scanned successors vertices active s v scanned low t)
    (reached : ∀ u ∈ active, Reaches successors u v) (member : u ∈ t.stack) :
    Reaches successors u v := by
  obtain ⟨searching, among, way⟩ := scan.invariant.back u member
  rcases List.mem_cons.mp among with rfl | among
  · exact way
  · exact way.trans (reached searching among)

/-- When all edges of the vertex are followed, its search is over like that of every open vertex
that is not active. -/
theorem searched (scan : Scanned successors vertices active s v (successors v) low t)
    (member : u ∈ t.stack) (inactive : u ∉ active) (edge : Edge successors u w) :
    (t.number? w).isSome = true := by
  by_cases same : u = v
  · subst same
    exact scan.entered w edge
  · refine scan.invariant.searched u member (fun among => ?_) w edge
    rcases List.mem_cons.mp among with eq | among
    · exact same eq
    · exact inactive among

/-- A vertex that sees something open below it stays open. -/
theorem explored_of_lt (inv : s.Invariant successors vertices active)
    (scan : Scanned successors vertices active s v (successors v) low t)
    (reached : ∀ u ∈ active, Reaches successors u v) (below : low < s.next) :
    Explored successors vertices active s v low t where
  invariant := {
    scan.invariant with
    opened := fun u among => scan.invariant.opened u (List.mem_cons_of_mem _ among)
    searched := fun u member inactive w edge => scan.searched member inactive edge
    back := by
      intro u member
      obtain ⟨lower, opened, -, way⟩ := scan.seen below
      obtain ⟨searching, among, further⟩ := inv.back lower opened
      exact ⟨searching, among, ((scan.reaches_vertex reached member).trans way).trans further⟩ }
  ext := scan.ext_start
  entered := (scan.invariant.entered v).mpr (Or.inl (scan.invariant.opened v List.mem_cons_self))
  low_le := scan.low_le
  seen := scan.seen
  least := fun u member new w edge => scan.least u member new w edge fun same => same ▸ edge

section Closing

variable {above : List α}

/-- If nothing below the vertex is seen, edges from above it lead there or to what was found. -/
theorem leads_inside (inv : s.Invariant successors vertices active)
    (scan : Scanned successors vertices active s v (successors v) s.next t)
    (stack : t.stack = above ++ v :: s.stack) (member : u ∈ above ++ [v])
    (edge : Edge successors u w) : w ∈ t.found.flatten ∨ w ∈ above ++ [v] := by
  have parts : t.stack = (above ++ [v]) ++ s.stack := by simp [stack]
  have opened : u ∈ t.stack := parts ▸ List.mem_append_left _ member
  have new : u ∉ s.stack := by
    have nodup := (List.nodup_append.mp scan.invariant.nodup).1
    rw [parts] at nodup
    exact List.disjoint_of_nodup_append nodup member
  have inactive : u ∉ active := fun among => new (inv.opened u among)
  rcases (scan.invariant.entered w).mp (scan.searched opened inactive edge) with open' | closed
  · rw [parts, List.mem_append] at open'
    rcases open' with inside | lower
    · exact Or.inr inside
    · obtain ⟨n, number⟩ := Option.isSome_iff_exists.mp ((inv.entered w).mpr (Or.inl lower))
      have known := scan.least u opened new w edge (fun same => same ▸ edge) lower n number
      have before : n < s.next := inv.numbered.lookup_lt number
      omega
  · exact Or.inl closed

theorem reaches_inside (inv : s.Invariant successors vertices active)
    (scan : Scanned successors vertices active s v (successors v) s.next t)
    (stack : t.stack = above ++ v :: s.stack) (member : u ∈ above ++ [v])
    (way : Reaches successors u w) : w ∈ t.found.flatten ∨ w ∈ above ++ [v] := by
  induction way with
  | refl => exact Or.inr member
  | tail _ edge ih =>
    rcases ih with closed | inside
    · exact Or.inl (scan.invariant.found_of_reaches closed (.single edge))
    · exact scan.leads_inside inv stack inside edge

/-- If nothing below the vertex is seen, the vertex and what lies above it are its component. -/
theorem strong_above (inv : s.Invariant successors vertices active)
    (scan : Scanned successors vertices active s v (successors v) s.next t)
    (reached : ∀ u ∈ active, Reaches successors u v) (stack : t.stack = above ++ v :: s.stack)
    (member : u ∈ above ++ [v]) :
    w ∈ above ++ [v] ↔ Reaches successors u w ∧ Reaches successors w u := by
  have opened {x : α} (inside : x ∈ above ++ [v]) : x ∈ t.stack := by
    rw [stack]
    simp only [List.mem_append, List.mem_cons, List.not_mem_nil, or_false] at inside ⊢
    exact inside.imp_right Or.inl
  have back {x : α} (inside : x ∈ above ++ [v]) : Reaches successors x v :=
    scan.reaches_vertex reached (opened inside)
  have forth {x : α} (inside : x ∈ above ++ [v]) : Reaches successors v x := by
    rcases List.mem_append.mp inside with higher | last
    · have upward := scan.invariant.upward
      rw [stack, List.pairwise_append] at upward
      exact upward.2.2 x higher v List.mem_cons_self
    · rw [List.mem_singleton.mp last]
  constructor
  · intro inside
    exact ⟨(back member).trans (forth inside), (back inside).trans (forth member)⟩
  · rintro ⟨way, return'⟩
    refine (scan.reaches_inside inv stack member way).resolve_left fun closed => ?_
    have found := scan.invariant.found_of_reaches closed return'
    exact List.disjoint_of_nodup_append scan.invariant.nodup (opened member) found

/-- A vertex that sees nothing open below it closes its component. -/
theorem explored_close (inv : s.Invariant successors vertices active)
    (scan : Scanned successors vertices active s v (successors v) s.next t)
    (reached : ∀ u ∈ active, Reaches successors u v) :
    Explored successors vertices active s v s.next (t.close v) := by
  obtain ⟨above, stack, absent⟩ := scan.exists_above
  have moved : (t.stack ++ t.found.flatten).Perm
      (s.stack ++ (t.found ++ [above ++ [v]]).flatten) := by
    have swapped : ((above ++ [v]) ++ (s.stack ++ t.found.flatten)).Perm
        ((s.stack ++ t.found.flatten) ++ (above ++ [v])) := List.perm_append_comm
    rw [stack]
    simpa using swapped
  have member : v ∈ t.stack := scan.invariant.opened v List.mem_cons_self
  rw [close_eq stack absent]
  constructor
  case invariant =>
    constructor
    case numbered => exact scan.invariant.numbered
    case known => exact scan.invariant.known
    case entered =>
      intro w
      rw [← List.mem_append, ← moved.mem_iff, List.mem_append]
      exact scan.invariant.entered w
    case nodup => exact moved.nodup_iff.mp scan.invariant.nodup
    case opened => exact inv.opened
    case searched =>
      intro u opened inactive w edge
      exact scan.searched (scan.ext_start.stack.subset opened) inactive edge
    case upward => exact inv.upward
    case back => exact inv.back
    case strong =>
      intro group among
      rcases List.mem_append.mp among with old | last
      · exact scan.invariant.strong group old
      · rw [List.mem_singleton.mp last]
        exact fun u inside w => scan.strong_above inv reached stack inside
    case order =>
      exact scan.invariant.order.append fun u inside w edge =>
        scan.leads_inside inv stack inside edge
  case ext =>
    exact ⟨scan.ext_start.numbers, List.suffix_refl _,
      scan.ext_start.found.trans (List.prefix_append _ _)⟩
  case entered => exact (scan.invariant.entered v).mpr (Or.inl member)
  case low_le => exact Nat.le_refl _
  case seen => exact fun below => absurd below (Nat.lt_irrefl _)
  case least => exact fun u opened new => absurd opened new

end Closing

theorem explored (inv : s.Invariant successors vertices active)
    (scan : Scanned successors vertices active s v (successors v) low t)
    (reached : ∀ u ∈ active, Reaches successors u v) :
    Explored successors vertices active s v low (if low = s.next then t.close v else t) := by
  split
  · next same =>
    subst same
    exact scan.explored_close inv reached
  · next other => exact scan.explored_of_lt inv reached (Nat.lt_of_le_of_ne scan.low_le other)

end Scanned

/-! ## The whole search -/

theorem explore_succ (successors : α → List α) (fuel : Nat) (v : α) (s : Search α) :
    explore successors (fuel + 1) v s =
      let scan := (successors v).foldl
        (fun acc w => Graph.inspect (explore successors fuel) acc.1 acc.2 w) (s.next, s.enter v)
      (scan.1, if scan.1 = s.next then scan.2.close v else scan.2) := by
  simp only [explore]
  split <;> rfl

/-- Inspecting an edge follows it, whatever is known of its end. -/
theorem Scanned.inspect {search : α → Search α → Nat × Search α} {scanned : List α} {low : Nat}
    (inv : s.Invariant successors vertices active)
    (scan : Scanned successors vertices active s v scanned low t) (edge : Edge successors v w)
    (explores : t.number? w = none →
      Explored successors vertices (v :: active) t w (search w t).1 (search w t).2) :
    Scanned successors vertices active s v (scanned ++ [w]) (Graph.inspect search low t w).1
      (Graph.inspect search low t w).2 := by
  unfold Graph.inspect
  split
  · next fresh => exact scan.followed inv edge fresh (explores fresh)
  · next n number =>
    split
    · next opened => exact scan.sighted inv edge opened number
    · next closed => exact scan.passed closed number

theorem Scanned.foldl_inspect (search : α → Search α → Nat × Search α) {scanned : List α}
    {low : Nat} (inv : s.Invariant successors vertices active)
    (scan : Scanned successors vertices active s v scanned low t) (edges : List α)
    (lead : ∀ w ∈ edges, Edge successors v w)
    (explores : ∀ r w, Edge successors v w → r.Invariant successors vertices (v :: active) →
      (s.enter v).Extends r → r.number? w = none →
      Explored successors vertices (v :: active) r w (search w r).1 (search w r).2) :
    Scanned successors vertices active s v (scanned ++ edges)
      (edges.foldl (fun acc w => Graph.inspect search acc.1 acc.2 w) (low, t)).1
      (edges.foldl (fun acc w => Graph.inspect search acc.1 acc.2 w) (low, t)).2 := by
  induction edges generalizing scanned low t with
  | nil => simpa using scan
  | cons w rest ih =>
    have edge := lead w List.mem_cons_self
    have step := scan.inspect inv edge (explores t w edge scan.invariant scan.ext)
    have later := ih step fun x member => lead x (List.mem_cons_of_mem _ member)
    simpa using later

/-- The search of a new vertex, with enough fuel for all vertices that are left. -/
theorem Invariant.explored (closed : Closed successors vertices)
    {fuel : Nat} (inv : s.Invariant successors vertices active) (fresh : s.number? v = none)
    (vertex : v ∈ vertices) (reached : ∀ u ∈ active, Reaches successors u v)
    (enough : vertices.length ≤ fuel + s.next) :
    Explored successors vertices active s v (explore successors fuel v s).1
      (explore successors fuel v s).2 := by
  induction fuel generalizing active s v with
  | zero =>
    have left := inv.next_lt fresh vertex
    omega
  | succ fuel ih =>
    have scan := (inv.scanned_nil fresh vertex reached).foldl_inspect (explore successors fuel) inv
      (successors v) (fun w edge => edge) ?_
    · rw [explore_succ]
      exact scan.explored inv reached
    · intro r w edge inv' ext fresh'
      exact ih inv' fresh' (closed v vertex w edge) (reaches_of_edge reached edge)
        (ext.enough enough)

/-- While nothing is being searched, nothing is open. -/
theorem Invariant.stack_eq_nil (inv : s.Invariant successors vertices []) : s.stack = [] := by
  refine List.eq_nil_iff_forall_not_mem.mpr fun u member => ?_
  obtain ⟨v, among, -⟩ := inv.back u member
  exact absurd among List.not_mem_nil

theorem invariant_empty : ({} : Search α).Invariant successors vertices [] := by
  constructor <;> simp [Numbered, number?, SuccessorsFirst]

/-- A vertex from which the search starts, unless it was met before, is entered afterwards. -/
theorem Invariant.started (closed : Closed successors vertices)
    (inv : s.Invariant successors vertices []) (vertex : v ∈ vertices) :
    ∃ t, (match s.number? v with
        | some _ => s
        | none => (explore successors vertices.length v s).2) = t ∧
      t.Invariant successors vertices [] ∧ s.Extends t ∧ (t.number? v).isSome = true := by
  split
  · next n number => exact ⟨s, rfl, inv, .refl s, by rw [number]; rfl⟩
  · next fresh =>
    have done := inv.explored closed fresh vertex (fun u among => absurd among List.not_mem_nil)
      (Nat.le_add_right vertices.length s.next)
    exact ⟨_, rfl, done.invariant, done.ext, done.entered⟩

/-- Searching from some vertices one after the other enters them all. -/
theorem Invariant.foldl_started (closed : Closed successors vertices)
    (inv : s.Invariant successors vertices []) {starts : List α} (among : starts ⊆ vertices) :
    ∃ t, starts.foldl (fun s v =>
        match s.number? v with
        | some _ => s
        | none => (explore successors vertices.length v s).2) s = t ∧
      t.Invariant successors vertices [] ∧ s.Extends t ∧
        ∀ v ∈ starts, (t.number? v).isSome = true := by
  induction starts generalizing s with
  | nil => exact ⟨s, rfl, inv, .refl s, fun v member => absurd member List.not_mem_nil⟩
  | cons v rest ih =>
    obtain ⟨r, first, inv', ext, entered⟩ := inv.started closed (among List.mem_cons_self)
    obtain ⟨t, later, inv'', ext', all⟩ :=
      ih inv' fun x member => among (List.mem_cons_of_mem _ member)
    refine ⟨t, by rw [List.foldl_cons, first, later], inv'', ext.trans ext', fun x member => ?_⟩
    rcases List.mem_cons.mp member with rfl | member
    · exact ext'.isSome_number? inv''.numbered entered
    · exact all x member

end Search

/-- The components of a graph whose edges lead to vertices decompose it. -/
theorem components_decomposes [DecidableEq α] {successors : α → List α} {vertices : List α}
    (closed : Closed successors vertices) :
    Decomposes successors vertices (components vertices successors) := by
  obtain ⟨t, final, inv, -, all⟩ :=
    Search.invariant_empty.foldl_started closed (List.Subset.refl vertices)
  have found : components vertices successors = t.found := congrArg Search.found final
  have entered (v : α) : (t.number? v).isSome = true ↔ v ∈ t.found.flatten := by
    rw [inv.entered v, inv.stack_eq_nil]
    simp
  rw [found]
  constructor
  · exact (List.nodup_append.mp inv.nodup).2.1
  · intro v
    rw [← entered v]
    exact ⟨inv.known v, all v⟩
  · exact inv.strong
  · exact inv.order

end ByteLayout.Graph
