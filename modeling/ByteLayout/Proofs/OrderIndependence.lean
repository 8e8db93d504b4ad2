import ByteLayout.Proofs.LeastSolution

/-! # The order in which a program is written

Two programs are reorderings of each other when they have the same functions up to the order of their
definition and of the instructions in their bodies. Their systems hold the same rules, but their runs
take the values in different orders. If both converge, and the instructions are steady in the trees of
one of them, both find the same. Without steadiness the order can show: a rule may have passed on
something that it would no longer make of the final trees. -/

namespace ByteLayout

/-! ## Reordered programs -/

/-- The same function up to the order of its instructions. -/
structure Function.Reordered (f g : Function) : Prop where
  name : f.name = g.name
  arguments : f.arguments = g.arguments
  returns : f.returns = g.returns
  external : f.external = g.external
  body : f.body.Perm g.body

/-- The same functions up to the order of their definition and of their instructions, and the same
seeds. -/
structure Program.Reordered (p q : Program) : Prop where
  functions : ∀ name, Option.Rel Function.Reordered (p.functions.get? name) (q.functions.get? name)
  seeded : ∀ v, (p.seeds.get? v).isSome = (q.seeds.get? v).isSome
  seeds : ∀ v, (p.seedOf v == q.seedOf v) = true

namespace Function.Reordered

variable {f g : Function}

theorem symm (reordered : f.Reordered g) : g.Reordered f :=
  ⟨reordered.name.symm, reordered.arguments.symm, reordered.returns.symm, reordered.external.symm,
    reordered.body.symm⟩

theorem returnValue? (reordered : f.Reordered g) : f.returnValue? = g.returnValue? := by
  simp [Function.returnValue?, reordered.name, reordered.returns]

theorem mem_values_iff (reordered : f.Reordered g) {v : ValueId} : v ∈ f.values ↔ v ∈ g.values := by
  simp [Function.values, reordered.arguments, reordered.returnValue?, reordered.body.mem_iff]

theorem allowedIn_iff (reordered : f.Reordered g) {i : Instruction} :
    i.AllowedIn f ↔ i.AllowedIn g := by
  cases i <;> simp [Instruction.AllowedIn, reordered.returns]

end Function.Reordered

namespace Program

variable {p q : Program} {f : Function} {i : Instruction} {v : ValueId}

theorem mem_functionList_iff : f ∈ p.functionList ↔ ∃ name, p.functions.get? name = some f := by
  simp [functionList, ← OrderedMap.mem_entries_iff]

/-- All instructions of a program are steady in the given trees. -/
def SteadyIn (p : Program) (policy : Policy) (trees : ValueId → Tree) : Prop :=
  ∀ f ∈ p.functionList, ∀ i ∈ f.body, i.SteadyIn policy trees

instance (p : Program) (policy : Policy) (trees : ValueId → Tree) :
    Decidable (p.SteadyIn policy trees) :=
  inferInstanceAs (Decidable (∀ f ∈ p.functionList, ∀ i ∈ f.body, i.SteadyIn policy trees))

theorem SteadyIn.of_below {policy : Policy} {trees trees' : ValueId → Tree}
    (steady : p.SteadyIn policy trees') (wf : ∀ v, (trees v).WellFormed)
    (below : ∀ v, (trees v).Below policy (trees' v)) : p.SteadyIn policy trees :=
  fun f member i among => (steady f member i among).of_below wf below

namespace Reordered

theorem refl (p : Program) : p.Reordered p := by
  refine ⟨fun name => ?_, fun _ => rfl, fun v => Tree.beq_iff.mpr fun _ => rfl⟩
  cases p.functions.get? name with
  | none => exact .none
  | some f => exact .some ⟨rfl, rfl, rfl, rfl, .refl _⟩

theorem symm (reordered : p.Reordered q) : q.Reordered p := by
  refine ⟨fun name => ?_, fun v => (reordered.seeded v).symm,
    fun v => Tree.beq_symm (reordered.seeds v)⟩
  have related := reordered.functions name
  generalize p.functions.get? name = left at related ⊢
  generalize q.functions.get? name = right at related ⊢
  cases related with
  | none => exact .none
  | some same => exact .some same.symm

theorem exists_get? (reordered : p.Reordered q) {name : String}
    (found : p.functions.get? name = some f) :
    ∃ g, q.functions.get? name = some g ∧ f.Reordered g := by
  have related := reordered.functions name
  rw [found] at related
  generalize q.functions.get? name = right at related ⊢
  cases related with
  | some same => exact ⟨_, rfl, same⟩

theorem exists_function (reordered : p.Reordered q) (member : f ∈ p.functionList) :
    ∃ g ∈ q.functionList, f.Reordered g := by
  obtain ⟨name, found⟩ := mem_functionList_iff.mp member
  obtain ⟨g, found', same⟩ := reordered.exists_get? found
  exact ⟨g, mem_functionList_iff.mpr ⟨name, found'⟩, same⟩

theorem function_eq_ok (reordered : p.Reordered q) {name : String} (found : p.function name = .ok f) :
    ∃ g, q.function name = .ok g ∧ f.Reordered g := by
  unfold function at found ⊢
  split at found
  · next known =>
    cases found
    obtain ⟨g, found', same⟩ := reordered.exists_get? known
    exact ⟨g, by rw [found'], same⟩
  · cases found

theorem rulesOf_eq_ok (reordered : p.Reordered q) {g : Function} (same : f.Reordered g)
    {rules : List Rule} (ok : p.rulesOf f i = .ok rules) : q.rulesOf g i = .ok rules := by
  cases i with
  | copy | load | store | offset | arith | other => exact ok
  | call c =>
    cases found : p.function c.callee with
    | error fault => simp [rulesOf, found, bind, Except.bind] at ok
    | ok callee =>
      obtain ⟨callee', found', like⟩ := reordered.function_eq_ok found
      rw [rulesOf_call found, like.arguments, like.returnValue?] at ok
      rw [rulesOf_call found']
      exact ok
  | ret result value =>
    simp only [rulesOf, same.returnValue?, same.name] at ok ⊢
    exact ok

theorem mem_values (reordered : p.Reordered q) (member : v ∈ p.values) : v ∈ q.values := by
  simp only [values, List.mem_eraseDups, List.mem_append, List.mem_flatMap,
    OrderedMap.mem_keys_iff] at member ⊢
  rcases member with ⟨f, inProgram, owned⟩ | seeded
  · obtain ⟨g, inOther, same⟩ := reordered.exists_function inProgram
    exact Or.inl ⟨g, inOther, same.mem_values_iff.mp owned⟩
  · exact Or.inr (by rwa [← reordered.seeded])

theorem steadyIn {policy : Policy} {trees : ValueId → Tree} (reordered : p.Reordered q)
    (steady : p.SteadyIn policy trees) : q.SteadyIn policy trees := by
  intro g member i among
  obtain ⟨f, inOther, same⟩ := reordered.symm.exists_function member
  exact steady f inOther i (same.body.mem_iff.mp among)

/-- A reordering of a valid program is valid. -/
theorem valid (reordered : p.Reordered q) (valid : p.Valid) : q.Valid := by
  constructor
  · refine forM_eq_ok_iff.mpr fun g member => forM_eq_ok_iff.mpr fun c called => ?_
    obtain ⟨f, inOther, same⟩ := reordered.symm.exists_function member
    obtain ⟨callee, found, arity, usable⟩ :=
      valid.callee inOther (same.body.mem_iff.mp (mem_calls_iff.mp called))
    obtain ⟨callee', found', like⟩ := reordered.function_eq_ok found
    rw [like.arguments] at arity
    rw [like.returns] at usable
    have used : (c.result.isSome && !callee'.returns) = false := by
      cases result : c.result.isSome with
      | false => rfl
      | true => simp [usable result]
    simp [checkCall, found', arity, used, bind, Except.bind]
  · intro g member i among
    obtain ⟨f, inOther, same⟩ := reordered.symm.exists_function member
    exact same.allowedIn_iff.mpr (valid.bodies f inOther i (same.body.mem_iff.mp among))

end Reordered

/-! ## Writing programs down -/

/-- Functions may be replaced by reorderings of them. -/
theorem Reordered.setFunction (reordered : p.Reordered q) {f g : Function} (same : f.Reordered g) :
    (p.setFunction f).Reordered (q.setFunction g) := by
  refine ⟨fun name => ?_, reordered.seeded, reordered.seeds⟩
  simp only [Program.setFunction, OrderedMap.get?_insert, same.name]
  split
  · exact .some same
  · exact reordered.functions name

/-- Functions may be defined in another order. -/
theorem Reordered.swap (reordered : p.Reordered q) {f f' g g' : Function} (first : f.Reordered f')
    (second : g.Reordered g') (distinct : f.name ≠ g.name) :
    ((p.setFunction f).setFunction g).Reordered ((q.setFunction g').setFunction f') := by
  refine ⟨fun name => ?_, reordered.seeded, reordered.seeds⟩
  simp only [Program.setFunction, OrderedMap.get?_insert, ← first.name, ← second.name]
  by_cases atFirst : name = f.name
  · subst atFirst
    simpa [distinct] using Option.Rel.some first
  · by_cases atSecond : name = g.name
    · simpa [atFirst, atSecond, distinct.symm] using Option.Rel.some second
    · simpa [atFirst, atSecond] using reordered.functions name

/-- The program without functions in which something is known about some values. -/
def ofSeeds (seeds : List (ValueId × List (Path × Tag))) : Program :=
  seeds.foldl (fun p e => p.seed e.1 (.ofEntries .distinct e.2)) {}

theorem wellFormed_seedOf_ofSeeds (seeds : List (ValueId × List (Path × Tag))) (v : ValueId) :
    ((ofSeeds seeds).seedOf v).WellFormed := by
  suffices general : ∀ start : Program, (∀ w, (start.seedOf w).WellFormed) →
      ∀ w, ((seeds.foldl (fun p e => p.seed e.1 (.ofEntries .distinct e.2)) start).seedOf
        w).WellFormed from general {} (fun _ => Tree.wellFormed_empty) v
  intro start known
  induction seeds generalizing start with
  | nil => exact known
  | cons e rest ih =>
    exact ih _ fun w => wellFormed_seedOf_seed known (Tree.wellFormed_ofEntries _ _) w

end Program

/-! ## Their systems and runs -/

namespace RuleSystem

variable {p q : Program} {options : Options} {s s' : RuleSystem} {o o' : Outcome} {v : ValueId}
  {r : Rule} {trees : ValueId → Tree}

theorem options_of_ofProgram (built : ofProgram p options = .ok s) : s.options = options := by
  obtain ⟨graph, rules, -, -, rfl⟩ := ofProgram_eq_ok built
  exact (foldl_addRule_spec _ _).1

theorem mem_rules_of_ofProgram (built : ofProgram p options = .ok s) :
    r ∈ s.rules ↔ ∃ f ∈ p.functionList, ∃ i ∈ f.body, ∃ own, p.rulesOf f i = .ok own ∧ r ∈ own := by
  have holds : s.HasRulesOf p [] := hasRulesOf_foldl_addRule built []
  simpa using holds.mem_iff

/-- The values of a system are those of its program and of its rules. -/
theorem mem_order_of_ofProgram (built : ofProgram p options = .ok s) :
    v ∈ s.order ↔ v ∈ p.values ∨ ∃ r ∈ s.rules, v ∈ r.target :: r.sources := by
  obtain ⟨graph, rules, nodes, -, rfl⟩ := ofProgram_eq_ok built
  let start : RuleSystem := ⟨options, graph, p.values, []⟩
  obtain ⟨-, sameGraph, held, -, -⟩ := foldl_addRule_spec start rules.flatten.flatten
  have tracked := mem_tracked_foldl_addRule (v := v) start rules.flatten.flatten
  rw [held, List.nil_append, ← tracked]
  constructor
  · intro member
    simp only [order, List.mem_eraseDups, List.mem_append, List.mem_flatMap,
      List.mem_filterMap] at member
    rcases member with ⟨f, ⟨name, -, found⟩, owned⟩ | member
    · have inProgram : f ∈ p.functionList := by
        rw [sameGraph] at found
        exact nodes ▸ List.mem_of_find?_eq_some found
      refine tracked.mpr (Or.inl (List.mem_eraseDups.mpr (List.mem_append_left _ ?_)))
      exact List.mem_flatMap.mpr ⟨f, inProgram, owned⟩
    · exact member
  · exact mem_order_of_mem_tracked

theorem mem_rules_of_reordered (reordered : p.Reordered q) (built : ofProgram p options = .ok s)
    (built' : ofProgram q options = .ok s') (member : r ∈ s.rules) : r ∈ s'.rules := by
  obtain ⟨f, inProgram, i, inBody, own, made, among⟩ := (mem_rules_of_ofProgram built).mp member
  obtain ⟨g, inOther, same⟩ := reordered.exists_function inProgram
  exact (mem_rules_of_ofProgram built').mpr
    ⟨g, inOther, i, same.body.mem_iff.mp inBody, own, reordered.rulesOf_eq_ok same made, among⟩

theorem mem_order_of_reordered (reordered : p.Reordered q) (built : ofProgram p options = .ok s)
    (built' : ofProgram q options = .ok s') (member : v ∈ s.order) : v ∈ s'.order := by
  refine (mem_order_of_ofProgram built').mpr ?_
  rcases (mem_order_of_ofProgram built).mp member with owned | ⟨r, rule, named⟩
  · exact Or.inl (reordered.mem_values owned)
  · exact Or.inr ⟨r, mem_rules_of_reordered reordered built built' rule, named⟩

/-- What is closed under the rules of a program is closed under those of its reorderings. -/
theorem ClosedUnder.of_reordered (reordered : p.Reordered q) (built : ofProgram p options = .ok s)
    (built' : ofProgram q options = .ok s') (above : s'.ClosedUnder q.seedOf trees) :
    s.ClosedUnder p.seedOf trees := by
  have sameOptions : s'.options = s.options :=
    (options_of_ofProgram built').trans (options_of_ofProgram built).symm
  intro v member
  obtain ⟨sum, wf, bounded, current, seeded, rules⟩ :=
    above v (mem_order_of_reordered reordered built built' member)
  rw [bound, sameOptions] at bounded
  rw [sameOptions] at current seeded rules
  refine ⟨sum, wf, bounded, current, (Tree.below_of_beq _ (reordered.seeds v)).trans seeded, ?_⟩
  intro r rule
  exact rules r (mem_rules_of_reordered reordered built built' rule)

/-- A run stays below the trees in which a run of a reordered program has converged, if the
instructions are steady in these. -/
theorem tree_below_of_reordered (reordered : p.Reordered q)
    (seeds : ∀ v, (p.seedOf v).WellFormed) (built : ofProgram p options = .ok s)
    (built' : ofProgram q options = .ok s') (ok : s.run p = .ok o) (ok' : s'.run q = .ok o')
    (converged : o'.converged = true) (steady : p.SteadyIn options.policy o'.tree) (v : ValueId) :
    (o.tree v).WellFormed ∧ (o.tree v).Below options.policy (o'.tree v) := by
  have above : s.ClosedUnder p.seedOf o'.tree :=
    (closedUnder_of_run (closed_of_ofProgram built') ok' converged).of_reordered reordered built built'
  have total : ∀ r ∈ s.rules, r.Total := by
    intro r rule
    obtain ⟨f, -, i, -, own, made, among⟩ := (mem_rules_of_ofProgram built).mp rule
    exact (Program.madeBy_of_mem_rulesOf made among).total
  have respects : ∀ r ∈ s.rules, r.Respects s.options.policy o'.tree := by
    intro r rule
    obtain ⟨f, inProgram, i, inBody, own, made, among⟩ := (mem_rules_of_ofProgram built).mp rule
    rw [options_of_ofProgram built]
    exact (Program.madeBy_of_mem_rulesOf made among).respects (steady f inProgram i inBody)
  cases found : o.slots.get? v with
  | none => simp [Outcome.tree, found, Tree.wellFormed_empty, Tree.empty_below]
  | some slot =>
    have below := run_below (closed_of_ofProgram built) total seeds above respects ok found
    rw [options_of_ofProgram built] at below
    simpa [Outcome.tree, found] using below

end RuleSystem

/-! ## Independence of the order -/

/-- Two outcomes have trees for the same values, and these trees are the same. -/
def Outcome.Agrees (o o' : Outcome) : Prop :=
  ∀ v, (o.slots.get? v).isSome = (o'.slots.get? v).isSome ∧ (o.tree v == o'.tree v) = true

namespace Program

variable {p q : Program}

/-- A program that differs from a valid one only in its order is valid, and the analyses of both have
an outcome. If both converge, and if the instructions are steady in the trees of one of the outcomes,
the outcomes agree. -/
theorem analyze_agrees_of_reordered (reordered : p.Reordered q) (valid : p.Valid)
    (seeds : ∀ v, (p.seedOf v).WellFormed) (options : Options) :
    q.Valid ∧ ∃ o o', p.analyze options = .ok o ∧ q.analyze options = .ok o' ∧
      (o.converged = true → o'.converged = true →
        p.SteadyIn options.policy o.tree ∨ p.SteadyIn options.policy o'.tree → o.Agrees o') := by
  have valid' : q.Valid := reordered.valid valid
  obtain ⟨s, represents, built⟩ := RuleSystem.exists_ofProgram valid
  obtain ⟨s', represents', built'⟩ := RuleSystem.exists_ofProgram valid'
  obtain ⟨o, ok⟩ := RuleSystem.exists_run (represents.withOptions options).total p
  obtain ⟨o', ok'⟩ := RuleSystem.exists_run (represents'.withOptions options).total q
  have seeds' : ∀ v, (q.seedOf v).WellFormed := fun v =>
    Tree.wellFormed_of_beq (reordered.seeds v) (seeds v)
  refine ⟨valid', o, o', (analyze_eq_ok_iff (built options)).mpr ok,
    (analyze_eq_ok_iff (built' options)).mpr ok', fun converged converged' steady v => ?_⟩
  have forth : p.SteadyIn options.policy o'.tree →
      ∀ w, (o.tree w).WellFormed ∧ (o.tree w).Below options.policy (o'.tree w) :=
    RuleSystem.tree_below_of_reordered reordered seeds (built _) (built' _) ok ok' converged'
  have back : q.SteadyIn options.policy o.tree →
      ∀ w, (o'.tree w).WellFormed ∧ (o'.tree w).Below options.policy (o.tree w) :=
    RuleSystem.tree_below_of_reordered reordered.symm seeds' (built' _) (built _) ok' ok converged
  -- Steadiness goes down along the order, so the outcome in which it is given carries it over to the
  -- other one.
  have both : p.SteadyIn options.policy o'.tree ∧ q.SteadyIn options.policy o.tree := by
    rcases steady with own | other
    · have steady := reordered.steadyIn own
      exact ⟨own.of_below (fun w => (back steady w).1) fun w => (back steady w).2, steady⟩
    · exact ⟨other, reordered.steadyIn
        (other.of_below (fun w => (forth other w).1) fun w => (forth other w).2)⟩
  obtain ⟨wf, below⟩ := forth both.1 v
  obtain ⟨wf', below'⟩ := back both.2 v
  refine ⟨?_, below.antisymm wf wf' below'⟩
  rw [Bool.eq_iff_iff, RuleSystem.isSome_slot_iff (represents.withOptions options).closed ok,
    RuleSystem.isSome_slot_iff (represents'.withOptions options).closed ok']
  exact ⟨RuleSystem.mem_order_of_reordered reordered (built _) (built' _),
    RuleSystem.mem_order_of_reordered reordered.symm (built' _) (built _)⟩

/-! ### A steady program -/

def getter : Function where
  name := "get"
  arguments := ["a"]
  returns := true
  body := [.load "x" "a" 8, .ret none "x"]

def mover : Function where
  name := "move"
  arguments := ["p"]
  body := [
    .offset "q" "p" 8,
    .call ⟨some "y", "get", ["q"]⟩,
    .store none "y" "p" 8,
    .arith "z" ["y"] (.float .double)]

/-- Moves the second one of two numbers to the first one, where the second one is known. -/
def moveNumber : Program :=
  ((ofSeeds [("p", [(.root, .pointer), (⟨.any, [.byte 8]⟩, .float .double)])]).setFunction
    getter).setFunction mover

/-- The same program with everything in reverse order. -/
def moveNumberReversed : Program :=
  ((ofSeeds [("p", [(.root, .pointer), (⟨.any, [.byte 8]⟩, .float .double)])]).setFunction
    { mover with body := mover.body.reverse }).setFunction
      { getter with body := getter.body.reverse }

theorem moveNumber_reordered : moveNumber.Reordered moveNumberReversed :=
  (Reordered.refl _).swap ⟨rfl, rfl, rfl, rfl, (List.reverse_perm _).symm⟩
    ⟨rfl, rfl, rfl, rfl, (List.reverse_perm _).symm⟩ (by decide)

/-- The number is moved whatever order the program is written in. -/
theorem analyze_agrees_of_reordered_moveNumber :
    ∃ o o', moveNumber.analyze { policy := .unified } = .ok o ∧
      moveNumberReversed.analyze { policy := .unified } = .ok o' ∧
      o.converged = true ∧ o'.converged = true ∧ moveNumber.SteadyIn .unified o.tree ∧
      (o.tree "p").tag ⟨.any, [.byte 0]⟩ = .float .double ∧ o.Agrees o' := by
  have found : (moveNumber.analyze { policy := .unified }).toOption.map
      (fun o => (o.converged, decide (moveNumber.SteadyIn .unified o.tree),
        (o.tree "p").tag ⟨.any, [.byte 0]⟩)) = some (true, true, .float .double) := by
    decide +kernel
  have found' : (moveNumberReversed.analyze { policy := .unified }).toOption.map
      Outcome.converged = some true := by
    decide +kernel
  obtain ⟨o, ended, same⟩ := Option.map_eq_some_iff.mp found
  obtain ⟨o', ended', converged'⟩ := Option.map_eq_some_iff.mp found'
  simp only [Prod.mk.injEq, decide_eq_true_eq] at same
  obtain ⟨converged, steady, moved⟩ := same
  obtain ⟨-, a, b, ok, ok', agrees⟩ := analyze_agrees_of_reordered moveNumber_reordered
    ⟨rfl, by decide⟩ (wellFormed_seedOf_ofSeeds _) { policy := .unified }
  cases (eq_ok_of_toOption ended).symm.trans ok
  cases (eq_ok_of_toOption ended').symm.trans ok'
  exact ⟨o, o', ok, ok', converged, converged', steady, moved,
    agrees converged converged' (Or.inl steady)⟩

/-! ### Where the order shows -/

/-- Two programs that differ in order only, whose analyses converge and find different trees. -/
structure ShowOrder (options : Options) (p q : Program) : Prop where
  reordered : p.Reordered q
  valid : p.Valid ∧ q.Valid
  seeds : ∀ v, (p.seedOf v).WellFormed
  outcomes : ∃ o o', p.analyze options = .ok o ∧ q.analyze options = .ok o' ∧
    o.converged = true ∧ o'.converged = true ∧ ¬ o.Agrees o'

/-- The program with one function that has the given body. -/
def withBody (p : Program) (body : List Instruction) : Program :=
  p.setFunction { name := "f", body }

theorem showOrder_of_tag {options : Options} {seeds : List (ValueId × List (Path × Tag))}
    {body body' : List Instruction} (perm : body.Perm body')
    (valid : ((ofSeeds seeds).withBody body).Valid) (v : ValueId) (path : Path) (tag tag' : Tag)
    (different : tag ≠ tag')
    (found : (((ofSeeds seeds).withBody body).analyze options).toOption.map
      (fun o => (o.converged, (o.tree v).tag path)) = some (true, tag))
    (found' : (((ofSeeds seeds).withBody body').analyze options).toOption.map
      (fun o => (o.converged, (o.tree v).tag path)) = some (true, tag')) :
    ShowOrder options ((ofSeeds seeds).withBody body) ((ofSeeds seeds).withBody body') := by
  have reordered : ((ofSeeds seeds).withBody body).Reordered ((ofSeeds seeds).withBody body') :=
    (Reordered.refl _).setFunction ⟨rfl, rfl, rfl, rfl, perm⟩
  refine ⟨reordered, ⟨valid, reordered.valid valid⟩, wellFormed_seedOf_ofSeeds seeds, ?_⟩
  obtain ⟨o, ended, same⟩ := Option.map_eq_some_iff.mp found
  obtain ⟨o', ended', same'⟩ := Option.map_eq_some_iff.mp found'
  simp only [Prod.mk.injEq] at same same'
  refine ⟨o, o', eq_ok_of_toOption ended, eq_ok_of_toOption ended', same.1, same'.1, ?_⟩
  intro agrees
  apply different
  rw [← same.2, ← same'.2]
  exact Tree.tag_eq_of_beq (agrees v).2 path

/-- Two pointers to integers at different offsets. -/
def twoFields : Program :=
  ofSeeds [("p", [(.root, .pointer), (⟨.any, [.byte 0]⟩, .integer)]),
    ("q", [(.root, .pointer), (⟨.any, [.byte 4]⟩, .integer)])]

/-- A pointer to an integer, and an integer. -/
def pointerAndInteger : Program :=
  ofSeeds [("p", [(.root, .pointer), (⟨.any, [.byte 0]⟩, .integer)]), ("q", [(.root, .integer)])]

/-- An integer with a pointer at its byte zero, and a pointer. -/
def integerWithPointer : Program :=
  ofSeeds [("v", [(.root, .integer), (⟨.byte 0, []⟩, .pointer)]), ("w", [(.root, .pointer)])]

/-- The order of a program can show in each of the three ways in which instructions fail to be steady.
What is loaded is one object until another field becomes known; a pointer can be followed until it
turns out to be an integer, too; and an integer with a pointer at its byte zero is stored as a
contradiction until the policy has made it a pointer. -/
theorem analyze_depends_on_order :
    ShowOrder {} (twoFields.withBody [.load "r" "p" 8, .copy "p" ["q"]])
        (twoFields.withBody [.copy "p" ["q"], .load "r" "p" 8]) ∧
      ShowOrder {} (pointerAndInteger.withBody [.load "r" "p" 8, .copy "p" ["q"]])
        (pointerAndInteger.withBody [.copy "p" ["q"], .load "r" "p" 8]) ∧
      ShowOrder { policy := .unified }
        (integerWithPointer.withBody [.copy "p" ["t"], .store none "v" "p" 8, .copy "v" ["w"]])
        (integerWithPointer.withBody
          [.store none "v" "p" 8, .copy "p" ["t"], .copy "v" ["w"]]) := by
  refine ⟨?_, ?_, ?_⟩
  · exact showOrder_of_tag (by decide) ⟨rfl, by decide⟩ "r" .root .integer .bottom (by decide)
      (by decide +kernel) (by decide +kernel)
  · exact showOrder_of_tag (by decide) ⟨rfl, by decide⟩ "r" .root .integer .bottom (by decide)
      (by decide +kernel) (by decide +kernel)
  · exact showOrder_of_tag (by decide) ⟨rfl, by decide⟩ "p" ⟨.any, [.byte 0]⟩ .anything .pointer
      (by decide) (by decide +kernel) (by decide +kernel)

end Program

end ByteLayout
