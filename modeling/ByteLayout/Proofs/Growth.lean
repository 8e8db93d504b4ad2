import ByteLayout.Proofs.RunInvariant

/-! # Trees grow within the bounds

However its rules behave, a run never takes anything away from a tree. The join with the old tree is
bounded, but the old tree lies within the bounds, and bounding respects the order of trees. So every
update leaves all trees as they are or raises one of them strictly, no tree falls below the bounded
part of its seed, and nothing outside the bounds is ever stored. -/

namespace ByteLayout

namespace RuleSystem

variable {s : RuleSystem} {seed : ValueId → Tree} {st st' : RunState} {v : ValueId}
  {rest : List ValueId}

/-! ## What one update does -/

/-- An update leaves all trees as they are and reports nothing, or it raises the tree of its value
strictly and reports that. -/
inductive Advances (policy : Policy) (v : ValueId) (st st' : RunState) : Prop
  | kept (trees : st'.tree = st.tree) (events : st'.events = st.events)
  | grown (new : Tree) (trees : ∀ w, st'.tree w = if w = v then new else st.tree w)
    (events : st'.events = st.events ++ RunState.growth v (st.tree v) new)
    (larger : (Tree.lattice policy).leq (st.tree v) new = true)
    (strict : (Tree.lattice policy).leq new (st.tree v) = false)

theorem events_step {new : Tree} (head : st.queue = v :: rest) (ok : s.step seed st = .ok st')
    (solved : s.equation seed st.tree v = .ok new) :
    st'.events = if (Tree.lattice s.options.policy).leq new (st.tree v) = true then st.events
      else st.events ++ RunState.growth v (st.tree v) new := by
  have trees : RunState.tree
      { st.setStatus v .stable with queue := rest, iterations := st.iterations + 1 } = st.tree :=
    RunState.tree_setStatus st v .stable
  unfold step at ok
  rw [head] at ok
  dsimp only [update] at ok
  rw [trees, solved] at ok
  dsimp only at ok
  split at ok
  · next absorbed =>
    cases ok
    rw [if_pos absorbed]
    rfl
  · next exceeds =>
    cases ok
    rw [if_neg exceeds]
    exact (RunState.foldl_enqueue_unreported _ _).2

theorem Consistent.advances (closed : s.Closed) (consistent : s.Consistent seed st)
    (head : st.queue = v :: rest) (ok : s.step seed st = .ok st') :
    Advances s.options.policy v st st' := by
  obtain ⟨-, -, new, solved, kept | grown⟩ := step_spec closed consistent.scheduled head ok
  · refine .kept kept.trees ?_
    rw [events_step head ok solved, if_pos kept.absorbed]
  · refine .grown new grown.trees ?_ ?_ (Bool.eq_false_iff.mpr grown.exceeds)
    · rw [events_step head ok solved, if_neg grown.exceeds]
    · obtain ⟨more, -, rfl⟩ := equation_eq_ok_iff.mp solved
      exact (Tree.leq_iff (s.wellFormed_raised _ _)).mpr (below_raised (consistent.within v) _)

theorem Advances.leq {policy : Policy} (advances : Advances policy v st st')
    (wf : ∀ w, (st.tree w).WellFormed) (w : ValueId) :
    (Tree.lattice policy).leq (st.tree w) (st'.tree w) = true := by
  have same : (Tree.lattice policy).leq (st.tree w) (st.tree w) = true :=
    (Tree.leq_iff (wf w)).mpr (Tree.below_refl policy _)
  cases advances with
  | kept trees => rwa [trees]
  | grown new trees _ larger =>
    rw [trees]
    split
    · next atV => rwa [atV]
    · exact same

/-! ## What every tree keeps -/

/-- A tree says what its seed says within the bounds, and it stores nothing outside them. -/
structure Fits (options : Options) (seed t : Tree) : Prop where
  seeded : (Tree.lattice options.policy).leq
    (seed.bounded options.maxDepth options.maxTypeOffset) t = true
  within : ∀ p tag, t.get? p = some tag →
    Tree.Within options.maxDepth options.maxTypeOffset p tag

theorem Reached.fits (closed : s.Closed) (seeds : ∀ v, (seed v).WellFormed)
    (reached : s.Reached seed st) (member : v ∈ s.order) :
    Fits s.options (seed v) (st.tree v) := by
  constructor
  · refine (Tree.leq_iff (reached.wellFormed closed seeds v)).mpr ?_
    refine reached.invariant (P := fun w t => (s.bound (seed w)).Below s.options.policy t) closed
      (fun w _ => Tree.below_refl _ _) (fun trees w new _ _ solved => ?_) v member
    obtain ⟨more, -, rfl⟩ := equation_eq_ok_iff.mp solved
    exact s.bound_below_raised (List.mem_cons_of_mem _ List.mem_cons_self)
  · exact Tree.bounded_beq_iff.mp ((reached.consistent closed).within v)

/-! ## Growth of all runs -/

/-- Whatever rules are added to the system of a valid program, the system has the rules of the
program's instructions and then those. At every time of a run every value has a tree that fits its
seed and the bounds, and every update lowers no tree and raises one strictly if it reports a change.
A run is over in a state that it reaches, or with a step at which a rule fails, and none of the rules
of the program fails. -/
theorem run_grows_within_bounds {p : Program} (valid : p.Valid)
    (seeds : ∀ v, (p.seedOf v).WellFormed) (options : Options) (added : List Rule) :
    ∃ s, ofProgram p options = .ok s ∧ (added.foldl addRule s).HasRulesOf p added ∧
      (∀ st, (added.foldl addRule s).Reached p.seedOf st →
        (∀ v ∈ p.values, (st.slots.get? v).isSome = true) ∧
        (∀ v slot, st.slots.get? v = some slot → Fits options (p.seedOf v) slot.tree) ∧
        ∀ v rest st', st.queue = v :: rest → (added.foldl addRule s).step p.seedOf st = .ok st' →
          Advances options.policy v st st' ∧
          ∀ w, (Tree.lattice options.policy).leq (st.tree w) (st'.tree w) = true) ∧
      (∀ o, (added.foldl addRule s).run p = .ok o →
        ∃ st, (added.foldl addRule s).Reached p.seedOf st ∧
          o = (added.foldl addRule s).outcome p st) ∧
      (∀ failure, (added.foldl addRule s).run p = .error failure →
        ∃ st, (added.foldl addRule s).Reached p.seedOf st ∧
          (added.foldl addRule s).step p.seedOf st = .error failure) ∧
      ((∀ r ∈ added, r.Total) → ∃ o, (added.foldl addRule s).run p = .ok o) := by
  obtain ⟨s, represents, built⟩ := exists_ofProgram valid
  obtain ⟨⟨closed, tracked⟩, total⟩ := (represents.withOptions options).foldl_addRule added
  have same := (foldl_addRule_spec { s with options } added).1
  have ending := reached_of_run closed p
  refine ⟨{ s with options }, built options, hasRulesOf_foldl_addRule (built options) added,
    fun st reached => ⟨fun v member => ?_, fun v slot found => ?_, fun v rest st' head ok => ?_⟩,
    fun o ok => ?_, fun failure failed => ?_, fun none => exists_run (total none) p⟩
  · exact ((reached.consistent closed).scheduled.slots v).mpr
      (mem_order_of_mem_tracked (tracked v member))
  · have member := ((reached.consistent closed).scheduled.slots v).mp (by rw [found]; rfl)
    have tree : st.tree v = slot.tree := by simp [RunState.tree, found]
    have fits := reached.fits closed seeds member
    rwa [tree, same] at fits
  · have advances := (reached.consistent closed).advances closed head ok
    rw [same] at advances
    exact ⟨advances, advances.leq (reached.wellFormed closed seeds)⟩
  · rwa [ok] at ending
  · rwa [failed] at ending

end RuleSystem

/-- The sum over a list of which it is known that a node points to a pointer to a number, and that
far from its start there is another one. -/
def Program.listSumFrom : Program :=
  listSum.seed "node" (.ofEntries .distinct [
    (.root, .pointer), (⟨.any, [.byte 0]⟩, .pointer), (⟨.any, [.byte 4096]⟩, .integer),
    (⟨.any, [.byte 0, .byte 0]⟩, .integer), (⟨.any, [.byte 0, .any]⟩, .anything)])

/-- The sum over a list down to depth one, with a seed that lies partly outside the bounds and a rule
that reads its own target and is not monotone. -/
theorem RuleSystem.run_grows_within_bounds_listSumFrom :
    Program.listSumFrom.Valid ∧ (∀ v, (Program.listSumFrom.seedOf v).WellFormed) ∧
      ∃ (options : Options) (s : RuleSystem) (o : Outcome), options.maxDepth = 1 ∧
        ofProgram .listSumFrom options = .ok s ∧
        (s.addRule (.guess "next" .integer)).run .listSumFrom = .ok o ∧
        ∃ slot, o.slots.get? "node" = some slot ∧
          Fits options (Program.listSumFrom.seedOf "node") slot.tree := by
  have valid : Program.listSumFrom.Valid := ⟨rfl, by decide⟩
  have seeds (v : ValueId) : (Program.listSumFrom.seedOf v).WellFormed :=
    Program.wellFormed_seedOf_seed (p := .listSum) (fun _ => Tree.wellFormed_empty)
      (Tree.wellFormed_normalize _ _) v
  obtain ⟨s, built, -, states, ending, -, ends⟩ := run_grows_within_bounds valid seeds
    { (default : Options) with maxDepth := 1, maxDepth_pos := Nat.le_refl 1 }
    [.guess "next" .integer]
  obtain ⟨o, ok⟩ := ends (List.forall_mem_singleton.mpr (Rule.guess_total "next" .integer))
  obtain ⟨st, reached, rfl⟩ := ending o ok
  obtain ⟨known, fits, -⟩ := states st reached
  obtain ⟨slot, found⟩ := Option.isSome_iff_exists.mp (known "node" (by decide))
  exact ⟨valid, seeds, _, s, _, rfl, built, ok, slot, found, fits _ _ found⟩

end ByteLayout
