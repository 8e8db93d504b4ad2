import ByteLayout.Proofs.Bound
import ByteLayout.Propagation.RuleSystem

/-! # Equations of values

The right side of a value's equation is the bounded join of the value's own tree and of others that
do not depend on it. Raising a tree to this join never takes anything away, and raising it a second
time changes nothing. Only the trees that the rules of a value read enter its equation. -/

namespace ByteLayout

namespace Tree

variable {policy : Policy} {t : Tree}

theorem wellFormed_foldl_merge (policy : Policy) (xs : List Tree) {start : Tree}
    (wf : start.WellFormed) : (xs.foldl (merge policy) start).WellFormed := by
  induction xs generalizing start with
  | nil => exact wf
  | cons x rest ih => exact ih (wellFormed_merge policy start x)

theorem foldl_merge_below_iff (wf : t.WellFormed) (xs : List Tree) (start : Tree) :
    (xs.foldl (merge policy) start).Below policy t ↔
      start.Below policy t ∧ ∀ x ∈ xs, x.Below policy t := by
  induction xs generalizing start with
  | nil => simp
  | cons x rest ih =>
    rw [List.foldl_cons, ih, merge_below_iff wf, List.forall_mem_cons, and_assoc]

theorem wellFormed_joinAll (policy : Policy) (xs : List Tree) :
    ((lattice policy).joinAll xs).WellFormed :=
  wellFormed_foldl_merge policy xs wellFormed_empty

/-- The join of many trees is the least well-formed tree above all of them. -/
theorem joinAll_below_iff (wf : t.WellFormed) (xs : List Tree) :
    ((lattice policy).joinAll xs).Below policy t ↔ ∀ x ∈ xs, x.Below policy t := by
  refine (foldl_merge_below_iff wf xs empty).trans ?_
  exact and_iff_right (empty_below policy t)

theorem below_joinAll (policy : Policy) {xs : List Tree} {x : Tree} (member : x ∈ xs) :
    x.Below policy ((lattice policy).joinAll xs) :=
  (joinAll_below_iff (wellFormed_joinAll policy xs) xs).mp (below_refl policy _) x member

end Tree

namespace RuleSystem

variable {s : RuleSystem} {seed trees trees' : ValueId → Tree} {v w : ValueId} {current new : Tree}
  {rest : List Tree}

/-- A tree raised to the bounded join of itself and others. -/
def raised (s : RuleSystem) (rest : List Tree) (current : Tree) : Tree :=
  s.bound ((Tree.lattice s.options.policy).joinAll (current :: rest))

theorem equation_eq_ok_iff :
    s.equation seed trees v = .ok new ↔
      ∃ more, s.contributions trees v = .ok more ∧ new = s.raised (seed v :: more) (trees v) := by
  unfold equation
  cases s.contributions trees v with
  | error fault => simp [bind, Except.bind]
  | ok more => simp [bind, Except.bind, pure, Except.pure, raised, eq_comm]

theorem wellFormed_raised (s : RuleSystem) (rest : List Tree) (current : Tree) :
    (s.raised rest current).WellFormed :=
  Tree.wellFormed_bounded _ _ (Tree.wellFormed_joinAll _ _)

theorem bound_raised_beq (s : RuleSystem) (rest : List Tree) (current : Tree) :
    (s.bound (s.raised rest current) == s.raised rest current) = true :=
  Tree.bounded_bounded_beq _ _ _

theorem bound_below_raised (s : RuleSystem) {x : Tree} (member : x ∈ current :: rest) :
    (s.bound x).Below s.options.policy (s.raised rest current) :=
  Tree.bounded_mono _ _ (Tree.below_joinAll _ member)

theorem raised_below_joinAll (s : RuleSystem) (rest : List Tree) (current : Tree) :
    (s.raised rest current).Below s.options.policy
      ((Tree.lattice s.options.policy).joinAll (current :: rest)) :=
  Tree.bounded_below _ _ _ _

/-- A tree within the bounds lies below what it is raised to. -/
theorem below_raised (within : (s.bound current == current) = true) (rest : List Tree) :
    current.Below s.options.policy (s.raised rest current) := by
  have same : current.Below s.options.policy (s.bound current) :=
    Tree.below_of_beq _ (Tree.beq_symm within)
  exact same.trans (s.bound_below_raised List.mem_cons_self)

/-- Raising a tree to the same join a second time changes nothing. -/
theorem raised_raised_beq (s : RuleSystem) (rest : List Tree) (current : Tree) :
    (s.raised rest current == s.raised rest (s.raised rest current)) = true := by
  refine Tree.Below.antisymm (s.wellFormed_raised rest current) (s.wellFormed_raised rest _)
    (below_raised (s.bound_raised_beq rest current) rest) ?_
  refine Tree.bounded_mono _ _ ?_
  refine (Tree.joinAll_below_iff (Tree.wellFormed_joinAll _ _) _).mpr fun x member => ?_
  rcases List.mem_cons.mp member with rfl | later
  · exact s.raised_below_joinAll rest current
  · exact Tree.below_joinAll _ (List.mem_cons_of_mem _ later)

/-- A tree within the bounds that is at least what it would be raised to is the same as that. -/
theorem beq_raised_of_leq (within : (s.bound current == current) = true)
    (absorbed : (Tree.lattice s.options.policy).leq (s.raised rest current) current = true) :
    (current == s.raised rest current) = true := by
  have wf : current.WellFormed :=
    Tree.wellFormed_of_beq absorbed (Tree.wellFormed_merge _ _ _)
  exact Tree.Below.antisymm wf (s.wellFormed_raised rest current) (below_raised within rest)
    ((Tree.leq_iff wf).mp absorbed)

/-! ## What an equation reads -/

theorem mem_rulesFor_iff {r : Rule} : r ∈ s.rulesFor v ↔ r ∈ s.rules ∧ r.target = v := by
  simp [rulesFor]

theorem mem_dependents_iff :
    w ∈ s.dependents v ↔ ∃ r ∈ s.rules, r.target = w ∧ v ∈ r.sources := by
  simp only [dependents, List.mem_eraseDups, List.mem_map, List.mem_filter, decide_eq_true_eq]
  constructor
  · rintro ⟨r, ⟨member, reads⟩, target⟩
    exact ⟨r, member, target, reads⟩
  · rintro ⟨r, member, target, reads⟩
    exact ⟨r, ⟨member, reads⟩, target⟩

/-- Rules see only the trees of their sources. -/
theorem contributions_congr (same : ∀ r ∈ s.rulesFor v, ∀ x ∈ r.sources, trees x = trees' x) :
    s.contributions trees v = s.contributions trees' v := by
  unfold contributions
  generalize s.rulesFor v = rules at same
  induction rules with
  | nil => rfl
  | cons r rest ih =>
    have first : r.sources.map trees = r.sources.map trees' :=
      List.map_congr_left (same r List.mem_cons_self)
    rw [List.mapM_cons, List.mapM_cons, first,
      ih fun r member => same r (List.mem_cons_of_mem _ member)]

/-- A change at `v` is not seen by a value that does not depend on `v`. -/
theorem contributions_of_not_dependent (elsewhere : ∀ x, x ≠ v → trees x = trees' x)
    (independent : w ∉ s.dependents v) : s.contributions trees w = s.contributions trees' w := by
  refine contributions_congr fun r member x reads => elsewhere x ?_
  rintro rfl
  obtain ⟨inSystem, target⟩ := mem_rulesFor_iff.mp member
  exact independent (mem_dependents_iff.mpr ⟨r, inSystem, target, reads⟩)

end RuleSystem

end ByteLayout
