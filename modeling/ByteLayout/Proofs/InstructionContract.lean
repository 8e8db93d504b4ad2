import ByteLayout.Proofs.Termination
import ByteLayout.Propagation.Outcome
import Mathlib.Data.List.Forall2

/-! # What converged trees say about instructions

The rules of an instruction bound the trees of its values from below. Two rules that go both ways
make two trees equal, since a final tree lies within the bounds and the order of trees is
antisymmetric. The root of a tree is never cut off, so what a rule says there reaches its target. -/

namespace ByteLayout

/-! ## Roots -/

namespace Tree

variable {policy : Policy} {a b t : Tree}

theorem not_hides_root (t : Tree) : ¬ t.Hides .root := by
  rintro ⟨q, above, -⟩
  have shorter : q.depth < Path.root.depth := (Path.isAncestorOf_iff.mp above).2.2
  exact Nat.not_lt_zero q.depth shorter

theorem covers_root_iff {tag : Tag} : t.Covers policy .root tag ↔ tag.Below policy (t.tag .root) :=
  or_iff_right t.not_hides_root

theorem tag_bounded_root (t : Tree) (depth offset : Nat) :
    (t.bounded depth offset).tag .root = t.tag .root := by
  rw [tag_bounded]
  refine if_pos ⟨Or.inl (Nat.zero_le depth), fun hop member => ?_⟩
  rw [Path.hops, Path.root, List.mem_singleton] at member
  rw [member]
  exact Int.le_trans (by decide) (Int.natCast_nonneg offset)

theorem below_tag_scalar (tag : Tag) : tag.Below .distinct ((scalar tag).tag .root) := by
  have wf : (scalar tag).WellFormed := wellFormed_normalize _ _
  have covered := (ofEntries_below_iff wf [(.root, tag)]).mp (below_refl .distinct (scalar tag))
  exact covers_root_iff.mp (covered (.root, tag) List.mem_cons_self)

theorem pointer_below_tag_pointerTo (memory : Tree) :
    Tag.Below .distinct .pointer ((pointerTo memory).tag .root) := by
  have merged := below_merge_left .distinct (scalar .pointer) (memory.under .any)
  exact Tag.below_trans (below_tag_scalar .pointer) (covers_root_iff.mp (merged .root))

/-- The value is a pointer, or has contradictory uses. -/
def MayPoint (t : Tree) : Prop := t.tag .root = .pointer ∨ t.tag .root = .anything

end Tree

/-! ## Solutions -/

namespace RuleSystem

variable {s : RuleSystem} {trees : ValueId → Tree} {a b : ValueId} {origin : Instruction}

/-- Trees within the bounds that are at least what the rules make of them. -/
structure Solution (s : RuleSystem) (trees : ValueId → Tree) : Prop where
  closed : s.Closed
  wellFormed : ∀ v ∈ s.tracked, (trees v).WellFormed
  within : ∀ v ∈ s.tracked, (trees v).Below s.options.policy (s.bound (trees v))
  rules : ∀ r ∈ s.rules, ∀ t, r.apply (r.sources.map trees) = .ok t →
    (s.bound t).Below s.options.policy (trees r.target)

theorem solution_of_raised (closed : s.Closed) (seed : ValueId → Tree)
    (solved : ∀ v ∈ s.tracked, ∃ more, s.contributions trees v = .ok more ∧
      (trees v == s.raised (seed v :: more) (trees v)) = true) : s.Solution trees := by
  refine ⟨closed, fun v member => ?_, fun v member => ?_, fun r member t applied => ?_⟩
  · obtain ⟨more, -, same⟩ := solved v member
    exact Tree.wellFormed_of_beq (Tree.beq_symm same) (s.wellFormed_raised _ _)
  · obtain ⟨more, -, same⟩ := solved v member
    have again := Tree.below_of_beq s.options.policy
      (Tree.beq_symm (s.bound_raised_beq (seed v :: more) (trees v)))
    have back := Tree.below_of_beq s.options.policy (Tree.beq_symm same)
    exact (Tree.below_of_beq _ same).trans (again.trans (Tree.bounded_mono _ _ back))
  · obtain ⟨more, read, same⟩ := solved r.target (closed r member r.target List.mem_cons_self)
    obtain ⟨u, among, again⟩ := (mem_of_mapM_eq_ok read).1 r (mem_rulesFor_iff.mpr ⟨member, rfl⟩)
    cases applied.symm.trans again
    exact (s.bound_below_raised (List.mem_cons_of_mem _ (List.mem_cons_of_mem _ among))).trans
      (Tree.below_of_beq _ (Tree.beq_symm same))

/-- The trees of a run that converged are a solution. -/
theorem Solves.solution (closed : s.Closed) {seed : ValueId → Tree} {o : Outcome}
    (solves : s.Solves seed o) (converged : o.converged = true) : s.Solution o.tree := by
  refine solution_of_raised closed seed fun v member => ?_
  obtain ⟨slot, found⟩ := Option.isSome_iff_exists.mp (solves.tracked v member)
  have tree : o.tree v = slot.tree := by simp [Outcome.tree, found]
  rw [tree]
  exact solves.stable v slot found (solves.solved converged v slot found)

namespace Solution

theorem below_of_identity (solution : s.Solution trees)
    (member : ⟨a, [b], .identity, some origin⟩ ∈ s.rules) :
    (trees b).Below s.options.policy (trees a) := by
  have tracked := solution.closed _ member b (List.mem_cons_of_mem _ List.mem_cons_self)
  exact (solution.within b tracked).trans (solution.rules _ member (trees b) rfl)

theorem leq_of_identity (solution : s.Solution trees)
    (member : ⟨a, [b], .identity, some origin⟩ ∈ s.rules) :
    (Tree.lattice s.options.policy).leq (trees b) (trees a) = true :=
  (Tree.leq_iff (solution.wellFormed a (solution.closed _ member a List.mem_cons_self))).mpr
    (solution.below_of_identity member)

/-- Two rules that go both ways make two trees equal. -/
theorem beq_of_bothWays (solution : s.Solution trees)
    (members : ∀ r ∈ Rule.bothWays a b origin, r ∈ s.rules) : (trees a == trees b) = true := by
  have forth := members ⟨a, [b], .identity, some origin⟩ List.mem_cons_self
  have back := members ⟨b, [a], .identity, some origin⟩
    (List.mem_cons_of_mem _ List.mem_cons_self)
  exact Tree.Below.antisymm
    (solution.wellFormed a (solution.closed _ forth a List.mem_cons_self))
    (solution.wellFormed b (solution.closed _ back b List.mem_cons_self))
    (solution.below_of_identity back) (solution.below_of_identity forth)

/-- What a rule says at the root reaches its target. -/
theorem tag_root_below (solution : s.Solution trees) {r : Rule} (member : r ∈ s.rules) {t : Tree}
    (applied : r.apply (r.sources.map trees) = .ok t) :
    (t.tag .root).Below s.options.policy ((trees r.target).tag .root) := by
  have covered := Tree.covers_root_iff.mp (solution.rules r member t applied .root)
  rwa [RuleSystem.bound, Tree.tag_bounded_root] at covered

theorem mayPoint (solution : s.Solution trees) {r : Rule} (member : r ∈ s.rules) {memory : Tree}
    (applied : r.apply (r.sources.map trees) = .ok (.pointerTo memory)) :
    (trees r.target).MayPoint := by
  have pointer : Tag.Below s.options.policy .pointer ((Tree.pointerTo memory).tag .root) :=
    (Tree.pointer_below_tag_pointerTo memory).of_distinct
  exact Tag.pointer_below_iff.mp (Tag.below_trans pointer (solution.tag_root_below member applied))

end Solution

end RuleSystem

/-! ## Instructions -/

/-- What an instruction of a function says about the trees of its values. -/
def Instruction.HoldsIn (p : Program) (f : Function) (policy : Policy) (trees : ValueId → Tree) :
    Instruction → Prop
  | .copy result operands => ∀ operand ∈ operands, (trees result == trees operand) = true
  | .load _ pointer _ => (trees pointer).MayPoint
  | .store _ _ pointer _ => (trees pointer).MayPoint
  | .offset result pointer _ => (trees result).MayPoint ∧ (trees pointer).MayPoint
  | .arith result operands tag => ∀ v ∈ result :: operands,
      tag.join policy ((trees v).tag .root) = (trees v).tag .root
  | .call c => ∃ callee, p.function c.callee = .ok callee ∧
      List.Forall₂ (fun actual formal => (trees actual == trees formal) = true)
        c.arguments callee.arguments ∧
      ∀ result, c.result = some result → ∃ returned, callee.returnValue? = some returned ∧
        (Tree.lattice policy).leq (trees returned) (trees result) = true
  | .ret _ value => ∃ returned, f.returnValue? = some returned ∧
      (Tree.lattice policy).leq (trees value) (trees returned) = true
  | .other .. => False

namespace RuleSystem

variable {p : Program} {f : Function} {s : RuleSystem} {trees : ValueId → Tree}

theorem Solution.holds_call (solution : s.Solution trees) (represents : Represents p s)
    (valid : p.Valid) (member : f ∈ p.functionList) {c : Call} (among : .call c ∈ f.body) :
    (Instruction.call c).HoldsIn p f s.options.policy trees := by
  obtain ⟨callee, found, arity, usable⟩ := valid.callee member among
  have held := represents.holds f member _ among _ (Program.rulesOf_call found)
  refine ⟨callee, found, List.forall₂_iff_zip.mpr ⟨arity, fun {actual formal} pair => ?_⟩,
    fun result used => ?_⟩
  · have pairs (r : Rule) (own : r ∈ Rule.bothWays formal actual (.call c)) : r ∈ s.rules :=
      held r (List.mem_append_left _ (List.mem_flatMap.mpr ⟨(actual, formal), pair, own⟩))
    exact Tree.beq_symm (solution.beq_of_bothWays pairs)
  · have returned : callee.returnValue? = some (callee.name ++ ".return") :=
      if_pos (usable (by rw [used]; rfl))
    have last : ⟨result, [callee.name ++ ".return"], .identity, some (.call c)⟩ ∈ s.rules :=
      held _ (List.mem_append_right _ (by rw [used, returned]; exact List.mem_cons_self))
    exact ⟨_, returned, solution.leq_of_identity last⟩

/-- Every instruction of a program holds in the solutions of its system. -/
theorem Solution.holds (solution : s.Solution trees) (represents : Represents p s)
    (valid : p.Valid) (member : f ∈ p.functionList) {i : Instruction} (among : i ∈ f.body) :
    i.HoldsIn p f s.options.policy trees := by
  have held := represents.holds f member i among
  cases i with
  | copy result operands =>
    intro operand operandMember
    have pairs (r : Rule) (own : r ∈ Rule.bothWays result operand (.copy result operands)) :
        r ∈ s.rules :=
      held _ rfl r (List.mem_flatMap.mpr ⟨operand, operandMember, own⟩)
    exact solution.beq_of_bothWays pairs
  | load result pointer size =>
    have back := held _ rfl _ (List.mem_cons_of_mem _ List.mem_cons_self)
    exact solution.mayPoint back rfl
  | store result value pointer size =>
    have forth := held _ rfl _ List.mem_cons_self
    exact solution.mayPoint forth rfl
  | offset result pointer bytes =>
    have forth := held _ rfl _ List.mem_cons_self
    have back := held _ rfl _ (List.mem_cons_of_mem _ List.mem_cons_self)
    exact ⟨solution.mayPoint forth rfl, solution.mayPoint back rfl⟩
  | arith result operands tag =>
    intro v named
    have constant := held _ rfl _ (List.mem_map.mpr ⟨v, named, rfl⟩)
    have below : tag.Below s.options.policy ((Tree.scalar tag).tag .root) :=
      (Tree.below_tag_scalar tag).of_distinct
    exact Tag.join_eq_right_iff.mpr
      (Tag.below_trans below (solution.tag_root_below constant rfl))
  | call c => exact solution.holds_call represents valid member among
  | ret result value =>
    have returned : f.returnValue? = some (f.name ++ ".return") :=
      if_pos (valid.bodies f member _ among)
    have made : p.rulesOf f (.ret result value) =
        .ok [⟨f.name ++ ".return", [value], .identity, some (.ret result value)⟩] := by
      simp only [Program.rulesOf, returned]
    exact ⟨_, returned, solution.leq_of_identity (held _ made _ List.mem_cons_self)⟩
  | other name result operands => exact (valid.bodies f member _ among).elim

end RuleSystem

/-! ## Analyses -/

namespace Program

variable {p : Program}

theorem analyze_eq_ok_iff {options : Options} {s : RuleSystem} {o : Outcome}
    (built : RuleSystem.ofProgram p options = .ok s) :
    p.analyze options = .ok o ↔ s.run p = .ok o := by
  simp only [analyze, built]
  cases s.run p <;> simp

/-- With a limit on updates that is large enough, the analysis of a valid program converges. -/
theorem Valid.exists_analyze_converged (valid : p.Valid) (options : Options) :
    ∃ limit positive o, p.analyze (options.limited limit positive) = .ok o ∧
      o.converged = true := by
  obtain ⟨s, represents, built⟩ := RuleSystem.exists_ofProgram valid
  have sound := represents.withOptions options
  obtain ⟨bound, answer, same, converged⟩ := RuleSystem.exists_run_limited sound.closed p
  have positive := Nat.le_add_left 1 bound
  obtain ⟨o, ok⟩ := RuleSystem.exists_run (represents.withOptions (options.limited _ positive)).total p
  refine ⟨bound + 1, positive, o, (analyze_eq_ok_iff (built _)).mpr ok, ?_⟩
  exact converged o ((same (bound + 1) positive (Nat.le_succ bound)).symm.trans ok)

/-- The analysis of a valid program has a tree for every value. If it converged, every instruction
holds in these trees. -/
theorem analyze_holds_instructions (valid : p.Valid) (options : Options) :
    ∃ o, p.analyze options = .ok o ∧
      (∀ v ∈ p.values, o.treeOf v = .ok (o.tree v)) ∧
      (o.converged = true → ∀ f ∈ p.functionList, ∀ i ∈ f.body,
        i.HoldsIn p f options.policy o.tree) := by
  obtain ⟨s, represents, built⟩ := RuleSystem.exists_ofProgram valid
  have sound := represents.withOptions options
  obtain ⟨o, ok⟩ := RuleSystem.exists_run sound.total p
  have solves := RuleSystem.solves_of_run sound.closed ok
  refine ⟨o, (analyze_eq_ok_iff (built options)).mpr ok, fun v member => ?_,
    fun converged f member i among => ?_⟩
  · obtain ⟨slot, found⟩ := Option.isSome_iff_exists.mp (solves.tracked v (sound.values v member))
    simp [Outcome.treeOf, Outcome.tree, found]
  · exact (solves.solution sound.closed converged).holds sound valid member among

/-- Some analysis of the sum over a list converges, and all of its instructions hold. -/
theorem analyze_holds_instructions_listSum :
    listSum.Valid ∧
      ∃ limit positive o, listSum.analyze (({} : Options).limited limit positive) = .ok o ∧
        o.converged = true ∧ ∀ f ∈ listSum.functionList, ∀ i ∈ f.body,
          i.HoldsIn listSum f .distinct o.tree := by
  obtain ⟨limit, positive, o, ok, converged⟩ := listSum_valid.exists_analyze_converged {}
  obtain ⟨other, again, -, holds⟩ :=
    analyze_holds_instructions listSum_valid (({} : Options).limited limit positive)
  cases ok.symm.trans again
  exact ⟨listSum_valid, limit, positive, o, ok, converged, holds converged⟩

end Program

end ByteLayout
