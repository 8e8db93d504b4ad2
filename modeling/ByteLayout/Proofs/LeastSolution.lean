import ByteLayout.Proofs.InstructionContract
import ByteLayout.Proofs.RunInvariant
import ByteLayout.Proofs.SteadyTransfer

/-! # Runs stay below steady solutions

A run only raises trees as far as its equations ask for. Hence it stays below every solution of the
equations on which the rules are steady, that is, on which they make at least as much of the solution
as of any trees below it. Not all rules are steady on all solutions, and runs of one system can end
in different ones. -/

namespace ByteLayout

variable {policy : Policy} {trees trees' : ValueId → Tree}

/-! ## Steady instructions -/

/-- The rules of an instruction lose nothing when more becomes known, up to the given trees. -/
def Instruction.SteadyIn (policy : Policy) (trees : ValueId → Tree) : Instruction → Prop
  | .load result pointer size | .store _ result pointer size =>
    (trees pointer).SteadyLoad policy size ∧ (policy = .unified → (trees result).Unmixed)
  | .offset result pointer _ =>
    (trees pointer).SteadyPointer policy ∧ (trees result).SteadyPointer policy
  | _ => True

instance (policy : Policy) (trees : ValueId → Tree) :
    (i : Instruction) → Decidable (i.SteadyIn policy trees)
  | .load .. | .store .. => inferInstanceAs (Decidable (_ ∧ (_ → _)))
  | .offset .. => inferInstanceAs (Decidable (_ ∧ _))
  | .copy .. | .arith .. | .call .. | .ret .. | .other .. => .isTrue trivial

/-- Instructions that are steady in some trees are steady in the trees below them. -/
theorem Instruction.SteadyIn.of_below {i : Instruction} (steady : i.SteadyIn policy trees')
    (wf : ∀ v, (trees v).WellFormed) (below : ∀ v, (trees v).Below policy (trees' v)) :
    i.SteadyIn policy trees := by
  cases i with
  | load result pointer size | store _ result pointer size =>
    exact ⟨steady.1.of_below (wf pointer) (below pointer),
      fun unified => (steady.2 unified).of_below (wf result) (below result)⟩
  | offset result pointer bytes =>
    exact ⟨steady.1.of_below (wf pointer) (below pointer),
      steady.2.of_below (wf result) (below result)⟩
  | copy | arith | call | ret | other => trivial

/-- A rule makes no more of trees below the given ones than of these. -/
def Rule.Respects (policy : Policy) (trees : ValueId → Tree) (r : Rule) : Prop :=
  ∀ lower : ValueId → Tree,
    (∀ v ∈ r.sources, (lower v).WellFormed ∧ (lower v).Below policy (trees v)) →
    ∀ a b, r.apply (r.sources.map lower) = .ok a → r.apply (r.sources.map trees) = .ok b →
      a.Below policy b

theorem Rule.respects_total {target source : ValueId} {f : Tree → Tree} {origin : Option Instruction}
    (mono : ∀ x : Tree, x.WellFormed → x.Below policy (trees source) →
      (f x).Below policy (f (trees source))) :
    Rule.Respects policy trees ⟨target, [source], .total f, origin⟩ := by
  intro lower below a b made made'
  obtain ⟨wf, under⟩ := below source List.mem_cons_self
  cases made
  cases made'
  exact mono (lower source) wf under

/-- The rules of a steady instruction respect the order of trees. -/
theorem Rule.MadeBy.respects {r : Rule} {i : Instruction} (made : r.MadeBy i)
    (steady : i.SteadyIn policy trees) : r.Respects policy trees := by
  cases made with
  | same target source => exact respects_total fun _ _ below => below
  | fixed target tag =>
    intro lower _ a b known known'
    cases known
    cases known'
    exact Tree.below_refl policy _
  | load result pointer size | storeBack _ result pointer size =>
    exact respects_total fun x wf below => steady.1.loaded_below wf below
  | loadBack result pointer size | store _ result pointer size =>
    exact respects_total fun x wf below => Tree.stored_below wf below steady.2
  | offset result pointer bytes =>
    exact respects_total fun x wf below => steady.1.movedForward_below bytes wf below
  | offsetBack result pointer bytes =>
    exact respects_total fun x wf below => steady.2.movedBackward_below bytes wf below

/-! ## Solutions from above -/

namespace RuleSystem

variable {s : RuleSystem} {seed : ValueId → Tree} {p : Program} {o : Outcome} {v : ValueId}
  {slot : Slot}

/-- Every tree is the bounded part of one that lies above it, above its seed and above what the rules
make of all trees. This says nothing about the order of the rules. -/
def ClosedUnder (s : RuleSystem) (seed trees : ValueId → Tree) : Prop :=
  ∀ v ∈ s.order, ∃ sum : Tree, sum.WellFormed ∧ (s.bound sum).Below s.options.policy (trees v) ∧
    (trees v).Below s.options.policy sum ∧ (seed v).Below s.options.policy sum ∧
    ∀ r ∈ s.rules, r.target = v → ∀ t, r.apply (r.sources.map trees) = .ok t →
      t.Below s.options.policy sum

/-- The trees of a run that converged are closed under the rules. -/
theorem closedUnder_of_run (closed : s.Closed) (ok : s.run p = .ok o)
    (converged : o.converged = true) : s.ClosedUnder p.seedOf o.tree := by
  intro v member
  have solves := solves_of_run closed ok
  obtain ⟨slot, found⟩ := Option.isSome_iff_exists.mp ((isSome_slot_iff closed ok).mpr member)
  obtain ⟨more, made, same⟩ := solves.stable v slot found (solves.solved converged v slot found)
  have tree : o.tree v = slot.tree := by simp [Outcome.tree, found]
  refine ⟨(Tree.lattice s.options.policy).joinAll (slot.tree :: p.seedOf v :: more),
    Tree.wellFormed_joinAll _ _, ?_, ?_, ?_, ?_⟩
  · rw [tree]
    exact Tree.below_of_beq _ (Tree.beq_symm same)
  · rw [tree]
    exact Tree.below_joinAll _ List.mem_cons_self
  · exact Tree.below_joinAll _ (List.mem_cons_of_mem _ List.mem_cons_self)
  · intro r rule target t applied
    obtain ⟨result, among, again⟩ :=
      (mem_of_mapM_eq_ok made).1 r (mem_rulesFor_iff.mpr ⟨rule, target⟩)
    rw [applied] at again
    cases again
    exact Tree.below_joinAll _ (List.mem_cons_of_mem _ (List.mem_cons_of_mem _ among))

/-- Raising trees that lie below a closed family leaves them below it, if its rules respect it. -/
theorem preserves_below (closed : s.Closed) (above : s.ClosedUnder seed trees)
    (total : ∀ r ∈ s.rules, r.Total) (respects : ∀ r ∈ s.rules, r.Respects s.options.policy trees) :
    s.Preserves seed fun v t => t.WellFormed ∧ t.Below s.options.policy (trees v) := by
  intro lower v new member below raised
  obtain ⟨more, made, rfl⟩ := equation_eq_ok_iff.mp raised
  obtain ⟨sum, wf, bounded, current, seeded, rules⟩ := above v member
  have joined : ((Tree.lattice s.options.policy).joinAll (lower v :: seed v :: more)).Below
      s.options.policy sum := by
    refine (Tree.joinAll_below_iff wf _).mpr fun x listed => ?_
    rcases List.mem_cons.mp listed with rfl | later
    · exact (below v member).2.trans current
    · rcases List.mem_cons.mp later with rfl | contributed
      · exact seeded
      · obtain ⟨r, among, applied⟩ := (mem_of_mapM_eq_ok made).2 x contributed
        obtain ⟨rule, target⟩ := mem_rulesFor_iff.mp among
        obtain ⟨t, applied'⟩ := total r rule (r.sources.map trees)
        have sources : ∀ w ∈ r.sources,
            (lower w).WellFormed ∧ (lower w).Below s.options.policy (trees w) := fun w source =>
          below w (mem_order_of_mem_tracked (closed r rule w (List.mem_cons_of_mem _ source)))
        exact (respects r rule lower sources x t applied applied').trans
          (rules r rule target t applied')
  exact ⟨s.wellFormed_raised _ _, (Tree.bounded_mono _ _ joined).trans bounded⟩

/-- A run ends with trees below every closed family that its rules respect. -/
theorem run_below (closed : s.Closed) (total : ∀ r ∈ s.rules, r.Total)
    (seeds : ∀ v, (p.seedOf v).WellFormed) (above : s.ClosedUnder p.seedOf trees)
    (respects : ∀ r ∈ s.rules, r.Respects s.options.policy trees) (ok : s.run p = .ok o)
    (found : o.slots.get? v = some slot) :
    slot.tree.WellFormed ∧ slot.tree.Below s.options.policy (trees v) := by
  refine run_invariant closed (fun w member => ?_) (preserves_below closed above total respects) ok
    found
  obtain ⟨sum, wf, bounded, -, seeded, -⟩ := above w member
  exact ⟨Tree.wellFormed_bounded _ _ (seeds w), (Tree.bounded_mono _ _ seeded).trans bounded⟩

end RuleSystem

end ByteLayout
