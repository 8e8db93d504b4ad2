import ByteLayout.Proofs.Worklist

/-! # What every tree of a run keeps

A run gives trees to values in two ways only: at the start, when a value gets the bounded part of its
seed, and when a value is brought up to its equation. A property that both ways establish holds of
every tree at any time, wherever the run is cut short. -/

namespace ByteLayout

namespace RunState

theorem foldl_enqueue_unreported (vs : List ValueId) (st : RunState) :
    (vs.foldl enqueue st).iterations = st.iterations ∧
      (vs.foldl enqueue st).events = st.events := by
  induction vs generalizing st with
  | nil => exact ⟨rfl, rfl⟩
  | cons v rest ih =>
    have one : (st.enqueue v).events = st.events := by
      unfold enqueue
      split <;> rfl
    obtain ⟨iterations, events⟩ := ih (st.enqueue v)
    exact ⟨iterations.trans (iterations_enqueue st v), events.trans one⟩

end RunState

namespace RuleSystem

variable {s : RuleSystem} {seed : ValueId → Tree} {st st' : RunState} {v : ValueId}
  {rest : List ValueId} {P : ValueId → Tree → Prop}

theorem tree_foldl_enqueue (vs : List ValueId) (st : RunState) :
    (vs.foldl RunState.enqueue st).tree = st.tree := by
  induction vs generalizing st with
  | nil => rfl
  | cons v rest ih => rw [List.foldl_cons, ih, RunState.tree_enqueue]

theorem tree_initial (member : v ∈ s.order) : (s.initial seed).tree v = s.bound (seed v) := by
  unfold initial
  rw [tree_foldl_enqueue, RunState.tree,
    get?_foldl_insert (fun v => ⟨s.bound (seed v), .unvisited⟩), if_pos member]
  rfl

theorem Consistent.tree_of_not_mem (consistent : s.Consistent seed st) (unknown : v ∉ s.order) :
    st.tree v = .empty := by
  rw [← consistent.scheduled.slots, Option.not_isSome_iff_eq_none] at unknown
  rw [RunState.tree, unknown]
  rfl

/-- Raising a tree to its equation establishes a property that all trees have. -/
def Preserves (s : RuleSystem) (seed : ValueId → Tree) (P : ValueId → Tree → Prop) : Prop :=
  ∀ (trees : ValueId → Tree) v new, v ∈ s.order → (∀ w ∈ s.order, P w (trees w)) →
    s.equation seed trees v = .ok new → P v new

theorem step_invariant (closed : s.Closed) (consistent : s.Consistent seed st)
    (raise : s.Preserves seed P) (before : ∀ w ∈ s.order, P w (st.tree w))
    (head : st.queue = v :: rest) (ok : s.step seed st = .ok st') :
    ∀ w ∈ s.order, P w (st'.tree w) := by
  obtain ⟨-, -, new, solved, kept | grown⟩ := step_spec closed consistent.scheduled head ok
  · rw [kept.trees]
    exact before
  · have queued : v ∈ s.order :=
      consistent.scheduled.mem_of_mem_queue (head ▸ List.mem_cons_self)
    intro w member
    rw [grown.trees]
    split
    · next same =>
      subst same
      exact raise st.tree w new queued before solved
    · exact before w member

/-! ## The states of a run -/

/-- The states that a run passes through. It goes on as long as a value is queued and the limit on
updates is not reached. -/
inductive Reached (s : RuleSystem) (seed : ValueId → Tree) : RunState → Prop
  | start : Reached s seed (s.initial seed)
  | next {st st' : RunState} {v : ValueId} {rest : List ValueId} (earlier : Reached s seed st)
    (head : st.queue = v :: rest) (left : st.iterations < s.options.maxIterations)
    (ok : s.step seed st = .ok st') : Reached s seed st'

theorem Reached.consistent (closed : s.Closed) (reached : s.Reached seed st) :
    s.Consistent seed st := by
  induction reached with
  | start => exact s.consistent_initial seed
  | next _ head _ ok ih => exact ih.step closed head ok

/-- A property of the bounded seeds that raising a tree to its equation keeps holds of every tree at
every time. -/
theorem Reached.invariant (closed : s.Closed) (start : ∀ v ∈ s.order, P v (s.bound (seed v)))
    (raise : s.Preserves seed P) (reached : s.Reached seed st) :
    ∀ v ∈ s.order, P v (st.tree v) := by
  induction reached with
  | start =>
    intro v member
    rw [tree_initial member]
    exact start v member
  | next earlier head _ ok ih =>
    exact step_invariant closed (earlier.consistent closed) raise ih head ok

/-- From a state that is reached, a run ends in such a state or with a step that fails. -/
theorem Reached.iterate (closed : s.Closed) (fuel : Nat) (reached : s.Reached seed st)
    (enough : st.iterations + fuel ≤ s.options.maxIterations) :
    match s.iterate seed fuel st with
    | .ok last => s.Reached seed last
    | .error failure => ∃ last, s.Reached seed last ∧ s.step seed last = .error failure := by
  induction fuel generalizing st with
  | zero => exact reached
  | succ fuel ih =>
    cases head : st.queue with
    | nil =>
      rw [iterate_of_nil head]
      exact reached
    | cons v rest =>
      rw [iterate_of_cons head]
      cases stepped : s.step seed st with
      | error failure => exact ⟨st, reached, stepped⟩
      | ok next =>
        obtain ⟨-, counted, -⟩ := step_spec closed (reached.consistent closed).scheduled head stepped
        exact ih (reached.next head (by omega) stepped) (by omega)

/-- A run is over in a state that it reaches, or with a step that fails. -/
theorem reached_of_run (closed : s.Closed) (p : Program) :
    match s.run p with
    | .ok o => ∃ st, s.Reached p.seedOf st ∧ o = s.outcome p st
    | .error failure =>
      ∃ st, s.Reached p.seedOf st ∧ s.step p.seedOf st = .error failure := by
  have unstarted : (s.initial p.seedOf).iterations = 0 :=
    (RunState.foldl_enqueue_unreported s.order _).1
  have ends := Reached.iterate closed s.options.maxIterations (.start : s.Reached p.seedOf _)
    (by omega)
  rw [run_eq]
  cases ended : s.iterate p.seedOf s.options.maxIterations (s.initial p.seedOf) with
  | error failure =>
    rw [ended] at ends
    exact ends
  | ok st =>
    rw [ended] at ends
    exact ⟨st, ends, rfl⟩

/-- Trees are well-formed at every time if the seeds are. -/
theorem Reached.wellFormed (closed : s.Closed) (seeds : ∀ v, (seed v).WellFormed)
    (reached : s.Reached seed st) (v : ValueId) : (st.tree v).WellFormed := by
  by_cases member : v ∈ s.order
  · refine reached.invariant (P := fun _ t => t.WellFormed) closed (fun w _ => ?_)
      (fun trees w new _ _ solved => ?_) v member
    · exact Tree.wellFormed_bounded _ _ (seeds w)
    · obtain ⟨more, -, rfl⟩ := equation_eq_ok_iff.mp solved
      exact s.wellFormed_raised _ _
  · rw [(reached.consistent closed).tree_of_not_mem member]
    exact Tree.wellFormed_empty

/-! ## What a run ends with -/

theorem exists_reached_of_run (closed : s.Closed) {p : Program} {o : Outcome}
    (ok : s.run p = .ok o) : ∃ st, s.Reached p.seedOf st ∧ o.slots = st.slots := by
  have ending := reached_of_run closed p
  rw [ok] at ending
  obtain ⟨st, reached, rfl⟩ := ending
  exact ⟨st, reached, rfl⟩

/-- A run ends with trees for the values that it has looked at first, and for no others. -/
theorem isSome_slot_iff (closed : s.Closed) {p : Program} {o : Outcome} (ok : s.run p = .ok o) :
    (o.slots.get? v).isSome = true ↔ v ∈ s.order := by
  obtain ⟨st, reached, slots⟩ := exists_reached_of_run closed ok
  rw [slots]
  exact (reached.consistent closed).scheduled.slots v

/-- A property of the bounded seeds that raising a tree to its equation keeps holds of every tree
that a run ends with. -/
theorem run_invariant (closed : s.Closed) {p : Program} {o : Outcome}
    (start : ∀ v ∈ s.order, P v (s.bound (p.seedOf v))) (raise : s.Preserves p.seedOf P)
    (ok : s.run p = .ok o) {slot : Slot} (found : o.slots.get? v = some slot) :
    P v slot.tree := by
  have member : v ∈ s.order :=
    (isSome_slot_iff closed ok).mp (Option.isSome_iff_exists.mpr ⟨slot, found⟩)
  obtain ⟨st, reached, slots⟩ := exists_reached_of_run closed ok
  have holds := reached.invariant closed start raise v member
  have tree : st.tree v = slot.tree := by
    rw [slots] at found
    simp [RunState.tree, found]
  rwa [tree] at holds

/-- Trees of a run are well-formed if its seeds are. -/
theorem wellFormed_of_run (closed : s.Closed) {p : Program} {o : Outcome}
    (seeds : ∀ v, (p.seedOf v).WellFormed) (ok : s.run p = .ok o) {slot : Slot}
    (found : o.slots.get? v = some slot) : slot.tree.WellFormed := by
  obtain ⟨st, reached, slots⟩ := exists_reached_of_run closed ok
  have wf := reached.wellFormed closed seeds v
  rw [slots] at found
  rwa [RunState.tree, found] at wf

end RuleSystem

theorem Program.wellFormed_seedOf_seed {p : Program} {t : Tree} {v : ValueId}
    (seeds : ∀ w, (p.seedOf w).WellFormed) (wf : t.WellFormed) (w : ValueId) :
    ((p.seed v t).seedOf w).WellFormed := by
  have known := seeds w
  unfold seedOf seed at *
  rw [OrderedMap.get?_upsert]
  split
  · cases p.seeds.get? v with
    | none => exact wf
    | some old => exact Tree.wellFormed_merge _ _ _
  · exact known

end ByteLayout
