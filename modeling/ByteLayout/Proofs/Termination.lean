import ByteLayout.Proofs.Worklist
import Mathlib.Algebra.Order.BigOperators.Group.List
import Mathlib.Algebra.GroupWithZero.Nat
import Mathlib.Algebra.Order.Group.Nat
import Mathlib.Data.Finset.Prod

/-! # Runs come to an end

Within a depth and an offset there are finitely many paths, and there are finitely many tags. The rank
of a tree counts what it covers among these. An update that is not absorbed raises the rank of its
value, however the rules behave, so there is a number of updates after which every queue is empty. -/

namespace ByteLayout

/-! ## Finitely many paths and tags -/

namespace Path

/-- The hops up to an offset. -/
def hopsUpTo (offset : Nat) : List Hop := .any :: (List.range (offset + 1)).map .byte

/-- The chains of at most so many hops, each up to an offset. -/
def chainsUpTo (offset : Nat) : Nat → List (List Hop)
  | 0 => [[]]
  | n + 1 => [] :: (hopsUpTo offset).flatMap fun hop => (chainsUpTo offset n).map (hop :: ·)

/-- The paths down to a depth, with all hops up to an offset. -/
def pathsUpTo (depth offset : Nat) : List Path :=
  (hopsUpTo offset).flatMap fun first => (chainsUpTo offset depth).map fun rest => ⟨first, rest⟩

theorem mem_hopsUpTo {offset : Nat} {hop : Hop} (small : hop.toInt ≤ offset) :
    hop ∈ hopsUpTo offset := by
  cases hop with
  | any => exact List.mem_cons_self
  | byte n =>
    have below : n < offset + 1 := by
      simp only [Hop.toInt] at small
      omega
    exact List.mem_cons_of_mem _ (List.mem_map.mpr ⟨n, List.mem_range.mpr below, rfl⟩)

theorem mem_chainsUpTo {offset n : Nat} {hops : List Hop} (short : hops.length ≤ n)
    (small : ∀ hop ∈ hops, hop.toInt ≤ offset) : hops ∈ chainsUpTo offset n := by
  induction n generalizing hops with
  | zero =>
    have empty : hops = [] := List.length_eq_zero_iff.mp (by omega)
    simp [chainsUpTo, empty]
  | succ n ih =>
    cases hops with
    | nil => exact List.mem_cons_self
    | cons hop rest =>
      have later : rest ∈ chainsUpTo offset n :=
        ih (by simpa using short) fun other member => small other (List.mem_cons_of_mem _ member)
      refine List.mem_cons_of_mem _ (List.mem_flatMap.mpr ⟨hop, ?_, ?_⟩)
      · exact mem_hopsUpTo (small hop List.mem_cons_self)
      · exact List.mem_map.mpr ⟨rest, later, rfl⟩

theorem mem_pathsUpTo {depth offset : Nat} {p : Path} (shallow : p.depth ≤ depth)
    (small : ∀ hop ∈ p.hops, hop.toInt ≤ offset) : p ∈ pathsUpTo depth offset := by
  obtain ⟨first, rest⟩ := p
  refine List.mem_flatMap.mpr ⟨first, mem_hopsUpTo (small first List.mem_cons_self), ?_⟩
  refine List.mem_map.mpr ⟨rest, mem_chainsUpTo shallow fun hop member => ?_, rfl⟩
  exact small hop (List.mem_cons_of_mem _ member)

end Path

/-- All tags. -/
def Tag.all : List Tag := .bottom :: .integer :: .pointer :: .anything :: Precision.all.map .float

theorem Tag.mem_all (tag : Tag) : tag ∈ Tag.all := by
  cases tag with
  | float precision => cases precision <;> decide
  | _ => decide

/-! ## The rank of a tree -/

namespace Tree

variable {policy : Policy} {a b : Tree} {depth offset : Nat}

/-- What a tree within the bounds can say: a tag at a path. -/
def statements (depth offset : Nat) : Finset (Path × Tag) :=
  (Path.pathsUpTo (depth + 1) offset).toFinset ×ˢ Tag.all.toFinset

open Classical in
/-- What a tree covers of all that can be said. -/
noncomputable def covered (policy : Policy) (depth offset : Nat) (t : Tree) : Finset (Path × Tag) :=
  (statements depth offset).filter fun e => t.Covers policy e.1 e.2

open Classical in
/-- How much a tree covers. A well-formed tree ranks above an ill-formed one that covers the same. -/
noncomputable def rank (policy : Policy) (depth offset : Nat) (t : Tree) : Nat :=
  (t.covered policy depth offset).card + if t.WellFormed then 1 else 0

theorem mem_covered_iff {t : Tree} {e : Path × Tag} :
    e ∈ t.covered policy depth offset ↔ e ∈ statements depth offset ∧ t.Covers policy e.1 e.2 := by
  classical exact Finset.mem_filter

theorem rank_le (policy : Policy) (depth offset : Nat) (t : Tree) :
    t.rank policy depth offset ≤ (statements depth offset).card + 1 := by
  have fewer : (t.covered policy depth offset).card ≤ (statements depth offset).card :=
    Finset.card_le_card fun e member => (mem_covered_iff.mp member).1
  unfold rank
  split <;> omega

theorem mem_statements {p : Path} {tag : Tag} (within : Within depth offset p tag) :
    (p, tag) ∈ statements depth offset := by
  have shallow : p.depth ≤ depth + 1 := by
    rcases within.1 with shallow | ⟨deep, -, -⟩ <;> omega
  rw [statements, Finset.mem_product, List.mem_toFinset, List.mem_toFinset]
  exact ⟨Path.mem_pathsUpTo shallow within.2, Tag.mem_all tag⟩

/-- A tree that grows within the bounds rises in rank. -/
theorem rank_lt_rank (below : a.Below policy b) (wfB : b.WellFormed)
    (bounded : (b.bounded depth offset == b) = true) (exceeds : ¬ b.leq policy a = true) :
    a.rank policy depth offset < b.rank policy depth offset := by
  have covers : a.covered policy depth offset ⊆ b.covered policy depth offset := by
    intro e member
    obtain ⟨said, covered⟩ := mem_covered_iff.mp member
    exact mem_covered_iff.mpr ⟨said, below.covers covered⟩
  unfold rank
  rw [if_pos wfB]
  by_cases wfA : a.WellFormed
  · rw [if_pos wfA]
    -- Some entry of `b` is not covered by `a`, and it is one of the countable statements.
    obtain ⟨p, uncovered⟩ : ∃ p, ¬ a.Covers policy p (b.tag p) := by
      by_contra none
      refine exceeds ((leq_iff wfA).mpr fun p => ?_)
      by_contra uncovered
      exact none ⟨p, uncovered⟩
    have known : b.tag p ≠ .bottom := by
      intro unknown
      rw [unknown] at uncovered
      exact uncovered (covers_bottom policy a p)
    have within := bounded_beq_iff.mp bounded p _ (get?_of_tag_ne_bottom known)
    have strict : a.covered policy depth offset ⊂ b.covered policy depth offset := by
      refine (Finset.ssubset_iff_of_subset covers).mpr ⟨(p, b.tag p), ?_, ?_⟩
      · exact mem_covered_iff.mpr ⟨mem_statements within, below_refl policy b p⟩
      · exact fun member => uncovered (mem_covered_iff.mp member).2
    have more := Finset.card_lt_card strict
    omega
  · rw [if_neg wfA]
    have more := Finset.card_le_card covers
    omega

end Tree

/-! ## Updates that are left -/

namespace RuleSystem

variable {s : RuleSystem} {seed : ValueId → Tree} {st st' : RunState} {v : ValueId}
  {rest : List ValueId} {new : Tree}

/-- How far a tree can still rise in rank. -/
noncomputable def room (s : RuleSystem) (t : Tree) : Nat :=
  (Tree.statements s.options.maxDepth s.options.maxTypeOffset).card + 1 -
    t.rank s.options.policy s.options.maxDepth s.options.maxTypeOffset

/-- A number of updates within which the queue becomes empty: a tree that rises costs at most one
update for every value. -/
noncomputable def updatesLeft (s : RuleSystem) (st : RunState) : Nat :=
  (s.order.map fun v => s.room (st.tree v)).sum * (s.order.length + 1) + st.queue.length

theorem queue_length_le (scheduled : st.Scheduled s.order) :
    st.queue.length ≤ s.order.length :=
  (List.subperm_of_subset scheduled.nodup fun _ member =>
    scheduled.mem_of_mem_queue member).length_le

theorem room_lt_room (within : (s.bound (st.tree v) == st.tree v) = true)
    (solved : s.equation seed st.tree v = .ok new)
    (exceeds : ¬ (Tree.lattice s.options.policy).leq new (st.tree v) = true) :
    s.room new < s.room (st.tree v) := by
  obtain ⟨more, -, raise⟩ := equation_eq_ok_iff.mp solved
  subst raise
  have rises := Tree.rank_lt_rank (below_raised within (seed v :: more))
    (s.wellFormed_raised _ _) (s.bound_raised_beq _ _) exceeds
  have limit := Tree.rank_le s.options.policy s.options.maxDepth s.options.maxTypeOffset
    (s.raised (seed v :: more) (st.tree v))
  unfold room
  omega

theorem updatesLeft_of_grown (consistent : s.Consistent seed st) (after : st'.Scheduled s.order)
    (member : v ∈ s.order) (solved : s.equation seed st.tree v = .ok new)
    (grown : s.Grown v new st st') : s.updatesLeft st' < s.updatesLeft st := by
  have smaller := room_lt_room (consistent.within v) solved grown.exceeds
  have atV : st'.tree v = new := (grown.trees v).trans (if_pos rfl)
  have fewer : (s.order.map fun w => s.room (st'.tree w)).sum <
      (s.order.map fun w => s.room (st.tree w)).sum := by
    refine List.sum_lt_sum _ _ (fun w _ => ?_) ⟨v, member, by rwa [atV]⟩
    by_cases same : w = v
    · rw [same, atV]
      exact Nat.le_of_lt smaller
    · rw [grown.trees w, if_neg same]
  have short := queue_length_le after
  have step := Nat.mul_le_mul_right (s.order.length + 1) (Nat.succ_le_of_lt fewer)
  rw [Nat.succ_mul] at step
  unfold updatesLeft
  omega

/-- Every step leaves fewer updates. -/
theorem updatesLeft_step (closed : s.Closed) (consistent : s.Consistent seed st)
    (head : st.queue = v :: rest) (ok : s.step seed st = .ok st') :
    s.updatesLeft st' < s.updatesLeft st := by
  obtain ⟨after, -, new, solved, kept | grown⟩ := step_spec closed consistent.scheduled head ok
  · unfold updatesLeft
    rw [kept.trees, kept.queue, head, List.length_cons]
    omega
  · have member := consistent.scheduled.mem_of_mem_queue (head ▸ List.mem_cons_self : v ∈ st.queue)
    exact updatesLeft_of_grown consistent after member solved grown

/-- With enough fuel the queue becomes empty. -/
theorem iterate_drains (closed : s.Closed) {fuel : Nat} (consistent : s.Consistent seed st)
    (enough : s.updatesLeft st ≤ fuel) (ok : s.iterate seed fuel st = .ok st') :
    st'.queue = [] := by
  induction fuel generalizing st with
  | zero =>
    cases ok
    have short : st'.queue.length = 0 := by
      unfold updatesLeft at enough
      omega
    exact List.length_eq_zero_iff.mp short
  | succ fuel ih =>
    cases head : st.queue with
    | nil =>
      rw [iterate_of_nil head] at ok
      cases ok
      exact head
    | cons v rest =>
      obtain ⟨next, stepped, later⟩ := exists_step_of_iterate head ok
      have fewer := updatesLeft_step closed consistent head stepped
      exact ih (consistent.step closed head stepped) (by omega) later

/-- Fuel beyond what is needed changes nothing. -/
theorem iterate_of_le (closed : s.Closed) {fuel larger : Nat} (consistent : s.Consistent seed st)
    (enough : s.updatesLeft st ≤ fuel) (more : fuel ≤ larger) :
    s.iterate seed larger st = s.iterate seed fuel st := by
  induction fuel generalizing st larger with
  | zero =>
    have drained := iterate_drains closed consistent enough rfl
    rw [iterate_of_nil drained, iterate_of_nil drained]
  | succ fuel ih =>
    cases head : st.queue with
    | nil => rw [iterate_of_nil head, iterate_of_nil head]
    | cons v rest =>
      obtain ⟨larger, rfl⟩ := Nat.exists_eq_add_of_le' (Nat.le_trans (Nat.le_add_left 1 fuel) more)
      rw [iterate_of_cons head, iterate_of_cons head]
      cases stepped : s.step seed st with
      | error failure => rfl
      | ok next =>
        have fewer := updatesLeft_step closed consistent head stepped
        exact ih (consistent.step closed head stepped) (by omega) (Nat.le_of_succ_le_succ more)

end RuleSystem

/-! ## The limit on updates -/

/-- The options with another limit on the number of updates. -/
def Options.limited (options : Options) (limit : Nat) (positive : 1 ≤ limit) : Options :=
  { options with maxIterations := limit, maxIterations_pos := positive }

namespace RuleSystem

/-- The system with another limit on the number of updates. -/
def limited (s : RuleSystem) (limit : Nat) (positive : 1 ≤ limit) : RuleSystem :=
  { s with options := s.options.limited limit positive }

section

variable (s : RuleSystem) (limit : Nat) (positive : 1 ≤ limit)

theorem initial_limited (seed : ValueId → Tree) :
    (s.limited limit positive).initial seed = s.initial seed := rfl

theorem step_limited (seed : ValueId → Tree) (st : RunState) :
    (s.limited limit positive).step seed st = s.step seed st := rfl

theorem iterate_limited (seed : ValueId → Tree) (fuel : Nat) (st : RunState) :
    (s.limited limit positive).iterate seed fuel st = s.iterate seed fuel st := by
  induction fuel generalizing st with
  | zero => rfl
  | succ fuel ih => simp only [iterate, step_limited, ih]

theorem run_limited (p : Program) :
    (s.limited limit positive).run p =
      (s.iterate p.seedOf limit (s.initial p.seedOf)).map (s.outcome p) := by
  rw [run_eq, iterate_limited, initial_limited]
  rfl

end

/-- From some limit on, the limit has no part in a run. -/
theorem exists_run_limited {s : RuleSystem} (closed : s.Closed) (p : Program) :
    ∃ bound answer,
      (∀ limit (positive : 1 ≤ limit), bound ≤ limit →
        (s.limited limit positive).run p = answer) ∧
      ∀ o, answer = .ok o → o.converged = true := by
  let start := s.initial p.seedOf
  have consistent : s.Consistent p.seedOf start := s.consistent_initial p.seedOf
  have enough := Nat.le_refl (s.updatesLeft start)
  refine ⟨s.updatesLeft start, (s.iterate p.seedOf (s.updatesLeft start) start).map (s.outcome p),
    fun limit positive reached => ?_, fun o ok => ?_⟩
  · rw [run_limited, iterate_of_le closed consistent enough reached]
  · cases ended : s.iterate p.seedOf (s.updatesLeft start) start with
    | error failure =>
      rw [ended] at ok
      cases ok
    | ok st =>
      rw [ended] at ok
      cases ok
      exact List.isEmpty_iff.mpr (iterate_drains closed consistent enough ended)

/-- Whatever rules are added to the system of a valid program, which has the rules of the program's
instructions and then those, there is a limit on updates from which on all runs end in the same way:
with the same fault of an added rule, or converged with the same trees, statuses and number of
updates. -/
theorem run_terminates {p : Program} (valid : p.Valid) (options : Options) (added : List Rule) :
    ∃ bound answer,
      (∀ limit (positive : 1 ≤ limit), bound ≤ limit →
        ∃ s, ofProgram p (options.limited limit positive) = .ok s ∧
          (added.foldl addRule s).HasRulesOf p added ∧ (added.foldl addRule s).run p = answer) ∧
      (∀ o, answer = .ok o → o.converged = true) ∧
      ((∀ r ∈ added, r.Total) → ∃ o, answer = .ok o) := by
  obtain ⟨s, represents, built⟩ := exists_ofProgram valid
  have extended := (represents.withOptions options).foldl_addRule added
  obtain ⟨bound, answer, same, converged⟩ := exists_run_limited extended.1.1 p
  have runs (limit : Nat) (positive : 1 ≤ limit) (reached : bound ≤ limit) :
      (added.foldl addRule { s with options := options.limited limit positive }).run p = answer := by
    rw [← same limit positive reached, foldl_addRule_options s options,
      foldl_addRule_options s (options.limited limit positive)]
    rfl
  refine ⟨bound, answer, fun limit positive reached => ?_, converged, fun total => ?_⟩
  · exact ⟨_, built _, hasRulesOf_foldl_addRule (built _) added, runs limit positive reached⟩
  · rw [← runs (bound + 1) (Nat.le_add_left 1 bound) (Nat.le_succ bound)]
    exact exists_run ((represents.withOptions _).foldl_addRule added |>.2 total) p

/-- The sum over a list, whose pointers would have infinite trees without bounds, with a rule that
reads its own target and is not monotone. -/
theorem run_terminates_listSum :
    Program.listSum.Valid ∧
      ∃ bound o, o.converged = true ∧ ∀ limit (positive : 1 ≤ limit), bound ≤ limit →
        ∃ s, ofProgram .listSum (({} : Options).limited limit positive) = .ok s ∧
          (s.addRule (.guess "node" .integer)).run .listSum = .ok o := by
  obtain ⟨bound, answer, runs, converged, ends⟩ :=
    run_terminates Program.listSum_valid {} [.guess "node" .integer]
  obtain ⟨o, rfl⟩ := ends (List.forall_mem_singleton.mpr (Rule.guess_total "node" .integer))
  refine ⟨Program.listSum_valid, bound, o, converged o rfl, fun limit positive reached => ?_⟩
  obtain ⟨s, built, -, ok⟩ := runs limit positive reached
  exact ⟨s, built, ok⟩

end RuleSystem

end ByteLayout
