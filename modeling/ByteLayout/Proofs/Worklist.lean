import ByteLayout.Proofs.Equation
import ByteLayout.Proofs.ProgramSystem
import ByteLayout.Propagation.Run

/-! # The worklist solves the equations

A value leaves the queue only by being brought up to its equation, and comes back whenever a tree
that one of its rules reads has grown. So at any time the values that are not queued satisfy their
equations, in whatever order the queue is worked off and wherever the run is cut short. -/

namespace ByteLayout

namespace RunState

variable {st : RunState} {v w : ValueId} {values : List ValueId}

/-! ## Reading a state after each operation -/

@[simp] theorem tree_setStatus (st : RunState) (v : ValueId) (x : Status) :
    (st.setStatus v x).tree = st.tree := by
  funext w
  by_cases same : w = v <;> simp [setStatus, tree, same]

theorem status_setStatus (st : RunState) (v : ValueId) (x : Status) (w : ValueId) :
    (st.setStatus v x).status w = if w = v then x else st.status w := by
  by_cases same : w = v <;> simp [setStatus, status, same]

theorem tree_setTree (st : RunState) (v : ValueId) (t : Tree) (w : ValueId) :
    (st.setTree v t).tree w = if w = v then t else st.tree w := by
  by_cases same : w = v <;> simp [setTree, tree, same]

@[simp] theorem status_setTree (st : RunState) (v : ValueId) (t : Tree) :
    (st.setTree v t).status = st.status := by
  funext w
  by_cases same : w = v <;> simp [setTree, status, same]

theorem isSome_insert_iff (slots : OrderedMap ValueId Slot) (slot : Slot) (member : v ∈ values)
    (before : ∀ w, (slots.get? w).isSome = true ↔ w ∈ values) (w : ValueId) :
    ((slots.insert v slot).get? w).isSome = true ↔ w ∈ values := by
  rw [OrderedMap.get?_insert]
  by_cases same : w = v
  · simp [same, member]
  · rw [if_neg same]
    exact before w

/-! ## The queue -/

/-- Every value has a slot, and the queue holds each queued value once. -/
structure Scheduled (values : List ValueId) (st : RunState) : Prop where
  slots : ∀ v, (st.slots.get? v).isSome = true ↔ v ∈ values
  queued : ∀ v, st.status v = .queued ↔ v ∈ st.queue
  nodup : st.queue.Nodup

@[simp] theorem tree_enqueue (st : RunState) (v : ValueId) : (st.enqueue v).tree = st.tree := by
  unfold enqueue
  split
  · rfl
  · exact tree_setStatus st v .queued

theorem status_enqueue (st : RunState) (v w : ValueId) :
    (st.enqueue v).status w = if w = v then .queued else st.status w := by
  unfold enqueue
  split
  · next queued =>
    by_cases same : w = v
    · rw [if_pos same, same, queued]
    · rw [if_neg same]
  · exact status_setStatus st v .queued w

@[simp] theorem iterations_enqueue (st : RunState) (v : ValueId) :
    (st.enqueue v).iterations = st.iterations := by
  unfold enqueue
  split <;> rfl

theorem Scheduled.enqueue (scheduled : Scheduled values st) (member : v ∈ values) :
    Scheduled values (st.enqueue v) := by
  by_cases queued : st.status v = .queued
  · rwa [RunState.enqueue, if_pos queued]
  · have absent : v ∉ st.queue := fun h => queued ((scheduled.queued v).mpr h)
    have longer : (st.enqueue v).queue = st.queue ++ [v] := by
      rw [RunState.enqueue, if_neg queued]
    refine ⟨fun w => ?_, fun w => ?_, ?_⟩
    · rw [RunState.enqueue, if_neg queued]
      exact isSome_insert_iff _ _ member scheduled.slots w
    · rw [status_enqueue, longer, List.mem_append, List.mem_singleton, ← scheduled.queued w]
      by_cases same : w = v <;> simp [same]
    · rw [longer, List.nodup_append]
      refine ⟨scheduled.nodup, by simp, ?_⟩
      intro x memX y memY same
      rw [List.mem_singleton] at memY
      exact absent (memY ▸ same ▸ memX)

/-- Only values with a slot are queued. -/
theorem Scheduled.mem_of_mem_queue (scheduled : Scheduled values st) (member : v ∈ st.queue) :
    v ∈ values := by
  rw [← scheduled.slots v]
  have queued := (scheduled.queued v).mpr member
  unfold status at queued
  cases found : st.slots.get? v with
  | none => simp [found] at queued
  | some slot => rfl

theorem Scheduled.setTree (scheduled : Scheduled values st) (member : v ∈ values) (t : Tree)
    (events : List Event) : Scheduled values { st.setTree v t with events } := by
  refine ⟨fun w => ?_, fun w => ?_, scheduled.nodup⟩
  · exact isSome_insert_iff _ _ member scheduled.slots w
  · change (st.setTree v t).status w = .queued ↔ w ∈ st.queue
    rw [status_setTree, scheduled.queued w]

/-- Queueing many values changes only who is queued. -/
theorem foldl_enqueue_spec (scheduled : Scheduled values st) (vs : List ValueId)
    (members : ∀ v ∈ vs, v ∈ values) :
    Scheduled values (vs.foldl RunState.enqueue st) ∧
      (vs.foldl RunState.enqueue st).tree = st.tree ∧
      (∀ w, (vs.foldl RunState.enqueue st).status w =
        if w ∈ vs then .queued else st.status w) ∧
      (vs.foldl RunState.enqueue st).iterations = st.iterations := by
  induction vs generalizing st with
  | nil => simpa using scheduled
  | cons v rest ih =>
    obtain ⟨after, trees, statuses, iterations⟩ := ih (scheduled.enqueue (members v List.mem_cons_self))
      fun w member => members w (List.mem_cons_of_mem _ member)
    refine ⟨after, ?_, fun w => ?_, ?_⟩
    · rw [List.foldl_cons, trees, tree_enqueue]
    · rw [List.foldl_cons, statuses, status_enqueue]
      by_cases later : w ∈ rest <;> by_cases same : w = v <;> simp [later, same]
    · rw [List.foldl_cons, iterations, iterations_enqueue]

end RunState

/-- The tree that an outcome has for a value, empty for a value that it does not know. -/
def Outcome.tree (o : Outcome) (v : ValueId) : Tree :=
  ((o.slots.get? v).map Slot.tree).getD .empty

namespace RuleSystem

variable {s : RuleSystem} {seed : ValueId → Tree} {st st' : RunState} {v : ValueId}
  {rest : List ValueId}

theorem mem_order_of_mem_tracked (member : v ∈ s.tracked) : v ∈ s.order :=
  List.mem_eraseDups.mpr (List.mem_append_right _ member)

theorem Closed.dependents (closed : s.Closed) : ∀ w ∈ s.dependents v, w ∈ s.order := by
  intro w member
  obtain ⟨r, inSystem, target, -⟩ := mem_dependents_iff.mp member
  exact mem_order_of_mem_tracked (closed r inSystem w (target ▸ List.mem_cons_self))

/-! ## One update -/

/-- An update found nothing to add: the value is stable, and nothing else changes. -/
structure Kept (s : RuleSystem) (v : ValueId) (rest : List ValueId) (new : Tree)
    (st st' : RunState) : Prop where
  absorbed : (Tree.lattice s.options.policy).leq new (st.tree v) = true
  trees : st'.tree = st.tree
  statuses : ∀ w, st'.status w = if w = v then .stable else st.status w
  queue : st'.queue = rest

/-- An update raised the tree of its value, and those that depend on it are queued. -/
structure Grown (s : RuleSystem) (v : ValueId) (new : Tree) (st st' : RunState) : Prop where
  exceeds : ¬ (Tree.lattice s.options.policy).leq new (st.tree v) = true
  trees : ∀ w, st'.tree w = if w = v then new else st.tree w
  statuses : ∀ w, st'.status w =
    if w ∈ s.dependents v then .queued else if w = v then .stable else st.status w

/-- The state in which the first value has been taken off the queue. -/
theorem scheduled_taken (scheduled : st.Scheduled s.order) (head : st.queue = v :: rest) :
    RunState.Scheduled s.order
      { st.setStatus v .stable with queue := rest, iterations := st.iterations + 1 } := by
  have nodup := scheduled.nodup
  rw [head, List.nodup_cons] at nodup
  have queued : v ∈ s.order := scheduled.mem_of_mem_queue (head ▸ List.mem_cons_self)
  refine ⟨fun w => ?_, fun w => ?_, nodup.2⟩
  · exact RunState.isSome_insert_iff _ _ queued scheduled.slots w
  · change (st.setStatus v .stable).status w = .queued ↔ w ∈ rest
    rw [RunState.status_setStatus]
    by_cases same : w = v
    · simp [same, nodup.1]
    · rw [if_neg same, scheduled.queued w, head, List.mem_cons]
      exact or_iff_right same

/-- What bringing a value up to its equation does. -/
theorem update_spec (closed : s.Closed) (scheduled : st.Scheduled s.order) (member : v ∈ s.order)
    (ok : s.update seed v st = .ok st') :
    st'.Scheduled s.order ∧ st'.iterations = st.iterations ∧
      ∃ new, s.equation seed st.tree v = .ok new ∧
        (((Tree.lattice s.options.policy).leq new (st.tree v) = true ∧ st' = st) ∨
          (¬ (Tree.lattice s.options.policy).leq new (st.tree v) = true ∧
            (∀ w, st'.tree w = if w = v then new else st.tree w) ∧
            ∀ w, st'.status w = if w ∈ s.dependents v then .queued else st.status w)) := by
  unfold update at ok
  cases solved : s.equation seed st.tree v with
  | error fault =>
    rw [solved] at ok
    cases ok
  | ok new =>
    rw [solved] at ok
    dsimp only at ok
    by_cases absorbed : (Tree.lattice s.options.policy).leq new (st.tree v) = true
    · rw [if_pos absorbed] at ok
      cases ok
      exact ⟨scheduled, rfl, new, rfl, Or.inl ⟨absorbed, rfl⟩⟩
    · rw [if_neg absorbed] at ok
      cases ok
      obtain ⟨after, trees, statuses, iterations⟩ := RunState.foldl_enqueue_spec
        (scheduled.setTree member new (st.events ++ RunState.growth v (st.tree v) new))
        (s.dependents v) closed.dependents
      refine ⟨after, iterations, new, rfl, Or.inr ⟨absorbed, fun w => ?_, fun w => ?_⟩⟩
      · exact (congrFun trees w).trans (RunState.tree_setTree st v new w)
      · refine (statuses w).trans ?_
        change (if w ∈ s.dependents v then Status.queued else (st.setTree v new).status w) = _
        rw [RunState.status_setTree]

/-- What taking the first value off the queue does. -/
theorem step_spec (closed : s.Closed) (scheduled : st.Scheduled s.order)
    (head : st.queue = v :: rest) (ok : s.step seed st = .ok st') :
    st'.Scheduled s.order ∧ st'.iterations = st.iterations + 1 ∧
      ∃ new, s.equation seed st.tree v = .ok new ∧
        (s.Kept v rest new st st' ∨ s.Grown v new st st') := by
  unfold step at ok
  rw [head] at ok
  have trees : RunState.tree
      { st.setStatus v .stable with queue := rest, iterations := st.iterations + 1 } = st.tree :=
    RunState.tree_setStatus st v .stable
  have statuses (w : ValueId) : RunState.status
      { st.setStatus v .stable with queue := rest, iterations := st.iterations + 1 } w =
        if w = v then .stable else st.status w := RunState.status_setStatus st v .stable w
  obtain ⟨after, iterations, new, solved, outcome⟩ := update_spec closed
    (scheduled_taken scheduled head) (scheduled.mem_of_mem_queue (head ▸ List.mem_cons_self)) ok
  rw [trees] at solved outcome
  refine ⟨after, iterations, new, solved, ?_⟩
  rcases outcome with ⟨absorbed, same⟩ | ⟨exceeds, changed, restated⟩
  · subst same
    exact Or.inl ⟨absorbed, trees, statuses, rfl⟩
  · refine Or.inr ⟨exceeds, changed, fun w => ?_⟩
    rw [restated, statuses]

/-! ## What every state of a run keeps -/

/-- A value that is not queued satisfies its equation, and every tree lies within the bounds. -/
structure Consistent (s : RuleSystem) (seed : ValueId → Tree) (st : RunState) : Prop where
  scheduled : st.Scheduled s.order
  visited : ∀ v ∈ s.order, st.status v ≠ .unvisited
  within : ∀ v, (s.bound (st.tree v) == st.tree v) = true
  settled : ∀ v, st.status v = .stable →
    ∃ new, s.equation seed st.tree v = .ok new ∧ (st.tree v == new) = true

theorem Consistent.of_kept (before : s.Consistent seed st) (after : st'.Scheduled s.order)
    {new : Tree} (solved : s.equation seed st.tree v = .ok new) (kept : s.Kept v rest new st st') :
    s.Consistent seed st' := by
  obtain ⟨absorbed, trees, statuses, -⟩ := kept
  refine ⟨after, fun w member => ?_, fun w => ?_, fun w stable => ?_⟩
  · rw [statuses]
    split
    · decide
    · exact before.visited w member
  · rw [trees]
    exact before.within w
  · rw [trees]
    rw [statuses] at stable
    by_cases same : w = v
    · subst same
      obtain ⟨more, -, raise⟩ := equation_eq_ok_iff.mp solved
      subst raise
      exact ⟨_, solved, beq_raised_of_leq (before.within w) absorbed⟩
    · rw [if_neg same] at stable
      exact before.settled w stable

theorem Consistent.of_grown (before : s.Consistent seed st) (after : st'.Scheduled s.order)
    {new : Tree} (solved : s.equation seed st.tree v = .ok new) (grown : s.Grown v new st st') :
    s.Consistent seed st' := by
  obtain ⟨-, trees, statuses⟩ := grown
  obtain ⟨more, read, raise⟩ := equation_eq_ok_iff.mp solved
  have elsewhere : ∀ x, x ≠ v → st'.tree x = st.tree x := by
    intro x other
    rw [trees, if_neg other]
  refine ⟨after, fun w member => ?_, fun w => ?_, fun w stable => ?_⟩
  · rw [statuses]
    split
    · decide
    · split
      · decide
      · exact before.visited w member
  · rw [trees]
    split
    · rw [raise]
      exact s.bound_raised_beq _ _
    · exact before.within w
  · rw [statuses] at stable
    split at stable
    · cases stable
    · next independent =>
      -- What `w` reads has not changed, so only a change of its own tree could matter.
      have unread := contributions_of_not_dependent elsewhere independent
      by_cases same : w = v
      · subst same
        refine ⟨_, equation_eq_ok_iff.mpr ⟨more, unread.trans read, rfl⟩, ?_⟩
        rw [trees, if_pos rfl, raise]
        exact s.raised_raised_beq _ _
      · rw [if_neg same] at stable
        obtain ⟨old, oldSolved, settled⟩ := before.settled w stable
        obtain ⟨others, oldRead, oldRaise⟩ := equation_eq_ok_iff.mp oldSolved
        refine ⟨old, equation_eq_ok_iff.mpr ⟨others, unread.trans oldRead, ?_⟩, ?_⟩
        · rw [oldRaise, elsewhere w same]
        · rw [elsewhere w same]
          exact settled

theorem Consistent.step (closed : s.Closed) (before : s.Consistent seed st)
    (head : st.queue = v :: rest) (ok : s.step seed st = .ok st') : s.Consistent seed st' := by
  obtain ⟨after, -, new, solved, kept | grown⟩ := step_spec closed before.scheduled head ok
  · exact before.of_kept after solved kept
  · exact before.of_grown after solved grown

theorem iterate_of_nil (empty : st.queue = []) (fuel : Nat) : s.iterate seed fuel st = .ok st := by
  cases fuel <;> simp [iterate, empty]

theorem iterate_of_cons (head : st.queue = v :: rest) (fuel : Nat) :
    s.iterate seed (fuel + 1) st = (s.step seed st).bind (s.iterate seed fuel) := by
  rw [iterate, if_neg (by simp [head])]
  cases s.step seed st <;> rfl

theorem exists_step_of_iterate {fuel : Nat} (head : st.queue = v :: rest)
    (ok : s.iterate seed (fuel + 1) st = .ok st') :
    ∃ next, s.step seed st = .ok next ∧ s.iterate seed fuel next = .ok st' := by
  rw [iterate_of_cons head] at ok
  cases stepped : s.step seed st with
  | error failure =>
    rw [stepped] at ok
    cases ok
  | ok next =>
    rw [stepped] at ok
    exact ⟨next, rfl, ok⟩

theorem Consistent.iterate (closed : s.Closed) (fuel : Nat) (before : s.Consistent seed st)
    (ok : s.iterate seed fuel st = .ok st') : s.Consistent seed st' := by
  induction fuel generalizing st with
  | zero =>
    cases ok
    exact before
  | succ fuel ih =>
    cases head : st.queue with
    | nil =>
      rw [iterate_of_nil head] at ok
      cases ok
      exact before
    | cons v rest =>
      obtain ⟨next, stepped, later⟩ := exists_step_of_iterate head ok
      exact ih (before.step closed head stepped) later

/-! ## The start of a run -/

theorem get?_foldl_insert (f : ValueId → Slot) (vs : List ValueId) (m : OrderedMap ValueId Slot)
    (w : ValueId) :
    (vs.foldl (fun m v => m.insert v (f v)) m).get? w = if w ∈ vs then some (f w) else m.get? w := by
  induction vs generalizing m with
  | nil => simp
  | cons v rest ih =>
    rw [List.foldl_cons, ih, OrderedMap.get?_insert]
    by_cases later : w ∈ rest <;> by_cases same : w = v <;> simp [later, same]

theorem consistent_initial (s : RuleSystem) (seed : ValueId → Tree) :
    s.Consistent seed (s.initial seed) := by
  let start : RunState :=
    { slots := s.order.foldl (fun m v => m.insert v ⟨s.bound (seed v), .unvisited⟩) .empty }
  have read (w : ValueId) : start.slots.get? w =
      if w ∈ s.order then some ⟨s.bound (seed w), .unvisited⟩ else none :=
    get?_foldl_insert (fun v => ⟨s.bound (seed v), .unvisited⟩) s.order .empty w
  have unvisited (w : ValueId) : start.status w = .unvisited := by
    unfold RunState.status
    rw [read]
    split <;> rfl
  have scheduled : start.Scheduled s.order := by
    refine ⟨fun w => ?_, fun w => ?_, List.nodup_nil⟩
    · rw [read]
      by_cases member : w ∈ s.order <;> simp [member]
    · rw [unvisited]
      exact ⟨fun h => (by cases h), fun h => absurd h List.not_mem_nil⟩
  obtain ⟨after, trees, statuses, -⟩ := RunState.foldl_enqueue_spec scheduled s.order fun _ h => h
  refine ⟨after, fun v member => ?_, fun v => ?_, fun v stable => ?_⟩
  · have queued : (s.initial seed).status v = .queued := (statuses v).trans (if_pos member)
    rw [queued]
    decide
  · have tree : (s.initial seed).tree v = start.tree v := congrFun trees v
    rw [tree]
    unfold RunState.tree
    rw [read]
    split
    · exact Tree.bounded_bounded_beq _ _ _
    · rfl
  · have status : (s.initial seed).status v = _ := statuses v
    rw [status, unvisited] at stable
    split at stable <;> cases stable

/-! ## Runs that do not fail -/

theorem exists_equation (total : ∀ r ∈ s.rules, r.Total) (seed trees : ValueId → Tree)
    (v : ValueId) : ∃ new, s.equation seed trees v = .ok new := by
  obtain ⟨more, read⟩ : ∃ more, s.contributions trees v = .ok more :=
    exists_mapM_eq_ok fun r member => total r (mem_rulesFor_iff.mp member).1 _
  exact ⟨_, equation_eq_ok_iff.mpr ⟨more, read, rfl⟩⟩

theorem exists_step (total : ∀ r ∈ s.rules, r.Total) (seed : ValueId → Tree) (st : RunState) :
    ∃ st', s.step seed st = .ok st' := by
  unfold step
  split
  · exact ⟨st, rfl⟩
  · next v rest _ =>
    obtain ⟨new, solved⟩ := exists_equation total seed (RunState.tree
      { st.setStatus v .stable with queue := rest, iterations := st.iterations + 1 }) v
    dsimp only [update]
    rw [solved]
    dsimp only
    split <;> exact ⟨_, rfl⟩

theorem exists_iterate (total : ∀ r ∈ s.rules, r.Total) (seed : ValueId → Tree) (fuel : Nat)
    (st : RunState) : ∃ st', s.iterate seed fuel st = .ok st' := by
  induction fuel generalizing st with
  | zero => exact ⟨st, rfl⟩
  | succ fuel ih =>
    obtain ⟨next, stepped⟩ := exists_step total seed st
    unfold iterate
    split
    · exact ⟨st, rfl⟩
    · rw [stepped]
      exact ih next

/-! ## What a run has found -/

/-- A run solved a system as far as it came: it looked at every value, it converged when no value is
left in the queue, and every stable value satisfies its equation on the final trees. -/
structure Solves (s : RuleSystem) (seed : ValueId → Tree) (o : Outcome) : Prop where
  tracked : ∀ v ∈ s.tracked, (o.slots.get? v).isSome = true
  visited : ∀ v slot, o.slots.get? v = some slot → slot.status ≠ .unvisited
  converged_iff : o.converged = true ↔
    ∀ v slot, o.slots.get? v = some slot → slot.status ≠ .queued
  stable : ∀ v slot, o.slots.get? v = some slot → slot.status = .stable →
    ∃ more, s.contributions o.tree v = .ok more ∧
      (slot.tree == (((Tree.lattice s.options.policy).joinAll
        (slot.tree :: seed v :: more)).truncate s.options.maxDepth).atMost
          s.options.maxTypeOffset) = true
  solved : o.converged = true → ∀ v slot, o.slots.get? v = some slot → slot.status = .stable

theorem Consistent.queue_isEmpty_iff (consistent : s.Consistent seed st) :
    st.queue.isEmpty = true ↔ ∀ v slot, st.slots.get? v = some slot → slot.status ≠ .queued := by
  have status {v : ValueId} {slot : Slot} (found : st.slots.get? v = some slot) :
      st.status v = slot.status := by
    simp [RunState.status, found]
  rw [List.isEmpty_iff]
  constructor
  · intro empty v slot found queued
    have member := (consistent.scheduled.queued v).mp ((status found).trans queued)
    rw [empty] at member
    cases member
  · intro idle
    refine List.eq_nil_iff_forall_not_mem.mpr fun v member => ?_
    obtain ⟨slot, found⟩ := Option.isSome_iff_exists.mp
      ((consistent.scheduled.slots v).mpr (consistent.scheduled.mem_of_mem_queue member))
    exact idle v slot found ((status found).symm.trans ((consistent.scheduled.queued v).mpr member))

theorem Consistent.solves (consistent : s.Consistent seed st) {o : Outcome}
    (slots : o.slots = st.slots) (converged : o.converged = st.queue.isEmpty) :
    s.Solves seed o := by
  have trees : o.tree = st.tree := by
    funext v
    rw [Outcome.tree, slots]
    rfl
  have reads {v : ValueId} {slot : Slot} (found : o.slots.get? v = some slot) :
      v ∈ s.order ∧ st.tree v = slot.tree ∧ st.status v = slot.status := by
    rw [slots] at found
    refine ⟨(consistent.scheduled.slots v).mp (by rw [found]; rfl), ?_, ?_⟩
    · simp [RunState.tree, found]
    · simp [RunState.status, found]
  have visited : ∀ v slot, o.slots.get? v = some slot → slot.status ≠ .unvisited := by
    intro v slot found
    obtain ⟨member, -, status⟩ := reads found
    rw [← status]
    exact consistent.visited v member
  have idle : o.converged = true ↔
      ∀ v slot, o.slots.get? v = some slot → slot.status ≠ .queued := by
    rw [converged, slots]
    exact consistent.queue_isEmpty_iff
  refine ⟨fun v member => ?_, visited, idle, fun v slot found stable => ?_, fun done v slot found => ?_⟩
  · rw [slots, consistent.scheduled.slots]
    exact mem_order_of_mem_tracked member
  · obtain ⟨-, tree, status⟩ := reads found
    obtain ⟨new, solved, settled⟩ := consistent.settled v (status.trans stable)
    obtain ⟨more, read, raise⟩ := equation_eq_ok_iff.mp solved
    rw [raise, tree] at settled
    rw [trees]
    exact ⟨more, read, settled⟩
  · have started := visited v slot found
    have left := idle.mp done v slot found
    cases status : slot.status with
    | unvisited => exact absurd status started
    | queued => exact absurd status left
    | stable => rfl

/-- What a run that ends in a state has found. -/
def outcome (s : RuleSystem) (p : Program) (st : RunState) : Outcome :=
  ⟨st.slots, st.iterations, st.queue.isEmpty, st.events ++ s.closing p.functions.size st⟩

theorem run_eq (s : RuleSystem) (p : Program) :
    s.run p = (s.iterate p.seedOf s.options.maxIterations (s.initial p.seedOf)).map
      (s.outcome p) := by
  unfold run
  cases s.iterate p.seedOf s.options.maxIterations (s.initial p.seedOf) <;> rfl

theorem exists_run (total : ∀ r ∈ s.rules, r.Total) (p : Program) : ∃ o, s.run p = .ok o := by
  obtain ⟨st, ok⟩ := exists_iterate total p.seedOf s.options.maxIterations (s.initial p.seedOf)
  rw [run_eq, ok]
  exact ⟨s.outcome p st, rfl⟩

theorem solves_of_run (closed : s.Closed) {p : Program} {o : Outcome} (ok : s.run p = .ok o) :
    s.Solves p.seedOf o := by
  rw [run_eq] at ok
  cases ended : s.iterate p.seedOf s.options.maxIterations (s.initial p.seedOf) with
  | error failure =>
    rw [ended] at ok
    cases ok
  | ok st =>
    rw [ended] at ok
    cases ok
    exact ((s.consistent_initial p.seedOf).iterate closed _ ended).solves rfl rfl

/-- Whatever rules are added to the system of a valid program, the system has the rules of the
program's instructions and then those, a run solves the equations as far as it comes, and it ends in
an outcome unless a rule fails. -/
theorem run_solves_equations {p : Program} (valid : p.Valid) (options : Options)
    (added : List Rule) :
    ∃ s, ofProgram p options = .ok s ∧
      (added.foldl addRule s).HasRulesOf p added ∧
      (∀ v ∈ p.values, v ∈ (added.foldl addRule s).tracked) ∧
      (∀ o, (added.foldl addRule s).run p = .ok o →
        (added.foldl addRule s).Solves p.seedOf o) ∧
      ((∀ r ∈ added, r.Total) → ∃ o, (added.foldl addRule s).run p = .ok o) := by
  obtain ⟨s, represents, built⟩ := exists_ofProgram valid
  have extended := (represents.withOptions options).foldl_addRule added
  refine ⟨{ s with options }, built options, hasRulesOf_foldl_addRule (built options) added,
    extended.1.2, fun o ok => ?_, fun total => ?_⟩
  · exact solves_of_run extended.1.1 ok
  · exact exists_run (extended.2 total) p

/-- The sum over a list, with a rule that reads its own target and is not monotone. -/
theorem run_solves_equations_listSum :
    Program.listSum.Valid ∧
      ∃ s o, ofProgram .listSum {} = .ok s ∧
        (s.addRule (.guess "node" .integer)).run .listSum = .ok o ∧
        (s.addRule (.guess "node" .integer)).Solves Program.listSum.seedOf o := by
  obtain ⟨s, built, -, -, solves, ends⟩ :=
    run_solves_equations Program.listSum_valid {} [.guess "node" .integer]
  obtain ⟨o, ok⟩ := ends (List.forall_mem_singleton.mpr (Rule.guess_total "node" .integer))
  exact ⟨Program.listSum_valid, s, o, built, ok, solves o ok⟩

end RuleSystem

end ByteLayout
