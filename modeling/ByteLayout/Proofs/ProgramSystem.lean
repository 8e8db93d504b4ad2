import ByteLayout.Propagation.RuleSystem

/-! # The system of a valid program

A program is valid when its calls are sound and every instruction may stand where it does. Such a
program has a system whatever the options are. The system tracks all values of the program and of its
rules. It holds the rules of every instruction in the order of the program, none of which can fail;
rules that are added come after them. -/

namespace ByteLayout

/-! ## Traversals that may fail -/

section Traversal

variable {α β γ ε : Type} {f : α → Except ε β} {xs : List α} {ys : List β}

theorem eq_ok_of_toOption {x : Except ε α} {a : α} (found : x.toOption = some a) :
    x = .ok a := by
  cases x with
  | error e => cases found
  | ok b =>
    cases found
    rfl

theorem exists_mapM_eq_ok (total : ∀ x ∈ xs, ∃ y, f x = .ok y) : ∃ ys, xs.mapM f = .ok ys := by
  induction xs with
  | nil => exact ⟨[], rfl⟩
  | cons x rest ih =>
    obtain ⟨y, first⟩ := total x List.mem_cons_self
    obtain ⟨ys, later⟩ := ih fun x member => total x (List.mem_cons_of_mem _ member)
    exact ⟨y :: ys, by simp [List.mapM_cons, first, later, bind, Except.bind, pure, Except.pure]⟩

/-- The results of a traversal are those of its elements. -/
theorem mem_of_mapM_eq_ok (ok : xs.mapM f = .ok ys) :
    (∀ x ∈ xs, ∃ y ∈ ys, f x = .ok y) ∧ ∀ y ∈ ys, ∃ x ∈ xs, f x = .ok y := by
  induction xs generalizing ys with
  | nil =>
    cases ok
    simp
  | cons x rest ih =>
    rw [List.mapM_cons] at ok
    cases first : f x with
    | error e => simp [first, bind, Except.bind] at ok
    | ok y =>
      cases later : rest.mapM f with
      | error e => simp [first, later, bind, Except.bind] at ok
      | ok more =>
        simp only [first, later, bind, Except.bind, pure, Except.pure, Except.ok.injEq] at ok
        subst ok
        obtain ⟨forth, back⟩ := ih later
        constructor
        · intro z member
          rcases List.mem_cons.mp member with rfl | member
          · exact ⟨y, List.mem_cons_self, first⟩
          · obtain ⟨w, among, result⟩ := forth z member
            exact ⟨w, List.mem_cons_of_mem _ among, result⟩
        · intro z member
          rcases List.mem_cons.mp member with rfl | member
          · exact ⟨x, List.mem_cons_self, first⟩
          · obtain ⟨w, among, result⟩ := back z member
            exact ⟨w, List.mem_cons_of_mem _ among, result⟩

theorem mapM_eq_ok_iff : xs.mapM f = .ok ys ↔ xs.map f = ys.map .ok := by
  induction xs generalizing ys with
  | nil => cases ys <;> simp [pure, Except.pure]
  | cons x rest ih =>
    rw [List.mapM_cons]
    cases first : f x with
    | error e => cases ys <;> simp [first, bind, Except.bind]
    | ok y =>
      cases later : rest.mapM f with
      | error e => cases ys <;> simp [first, later, bind, Except.bind, ← ih]
      | ok zs => cases ys <;> simp [first, later, bind, Except.bind, pure, Except.pure, ← ih]

/-- A traversal of traversals has one result for every inner element, in order. -/
theorem flatMap_map_eq_of_mapM_mapM {inner : α → List γ} {f : α → γ → Except ε β}
    {results : List (List β)} (ok : (xs.mapM fun x => (inner x).mapM (f x)) = .ok results) :
    (xs.flatMap fun x => (inner x).map (f x)) = results.flatten.map .ok := by
  rw [mapM_eq_ok_iff] at ok
  induction xs generalizing results with
  | nil =>
    cases results with
    | nil => rfl
    | cons first more => cases ok
  | cons x rest ih =>
    cases results with
    | nil => cases ok
    | cons first more =>
      rw [List.map_cons, List.map_cons, List.cons.injEq] at ok
      rw [List.flatMap_cons, mapM_eq_ok_iff.mp ok.1, ih ok.2, List.flatten_cons, List.map_append]

/-- A traversal fails where its function fails first. -/
theorem exists_first_of_mapM_eq_error {e : ε} (failed : xs.mapM f = .error e) :
    ∃ before x after, xs = before ++ x :: after ∧ (∀ z ∈ before, ∃ y, f z = .ok y) ∧
      f x = .error e := by
  induction xs with
  | nil => cases failed
  | cons x rest ih =>
    rw [List.mapM_cons] at failed
    cases first : f x with
    | error e' =>
      simp only [first, bind, Except.bind, Except.error.injEq] at failed
      subst failed
      exact ⟨[], x, rest, rfl, by simp, first⟩
    | ok y =>
      cases later : rest.mapM f with
      | ok more => simp [first, later, bind, Except.bind, pure, Except.pure] at failed
      | error e' =>
        simp only [first, later, bind, Except.bind, Except.error.injEq] at failed
        subst failed
        obtain ⟨before, z, after, rfl, fine, fails⟩ := ih later
        exact ⟨x :: before, z, after, rfl, List.forall_mem_cons.mpr ⟨⟨y, first⟩, fine⟩, fails⟩

/-- A traversal keeps what its function keeps. -/
theorem map_eq_of_map_eq_ok {g : α → γ} {k : β → γ} (ok : xs.map f = ys.map .ok)
    (kept : ∀ x y, f x = .ok y → g x = k y) : xs.map g = ys.map k := by
  induction xs generalizing ys with
  | nil =>
    cases ys with
    | nil => rfl
    | cons y more => cases ok
  | cons x rest ih =>
    cases ys with
    | nil => cases ok
    | cons y more =>
      rw [List.map_cons, List.map_cons, List.cons.injEq] at ok
      rw [List.map_cons, List.map_cons, kept x y ok.1, ih ok.2]

theorem forM_eq_ok_iff {check : α → Except ε Unit} :
    xs.forM check = .ok () ↔ ∀ x ∈ xs, check x = .ok () := by
  induction xs with
  | nil => simp [pure, Except.pure]
  | cons x rest ih =>
    rw [List.forall_mem_cons, ← ih]
    change (check x >>= fun _ => rest.forM check) = .ok () ↔ _
    cases check x <;> simp [bind, Except.bind]

end Traversal

/-! ## Valid programs -/

/-- Whether an instruction may stand in the body of a function: a function that returns nothing has
no return, and every instruction has a known meaning. -/
def Instruction.AllowedIn (f : Function) : Instruction → Prop
  | .ret .. => f.returns = true
  | .other .. => False
  | _ => True

instance (f : Function) : (i : Instruction) → Decidable (i.AllowedIn f)
  | .ret .. => inferInstanceAs (Decidable (f.returns = true))
  | .other .. => .isFalse id
  | .copy .. | .load .. | .store .. | .offset .. | .arith .. | .call .. => .isTrue trivial

namespace Program

/-- The calls of a program are sound and its instructions are allowed where they stand. -/
structure Valid (p : Program) : Prop where
  calls : p.validate = .ok ()
  bodies : ∀ f ∈ p.functionList, ∀ i ∈ f.body, i.AllowedIn f

/-- A program that walks a list and adds up what its nodes hold. A node points to the next one, and
its value lies behind that pointer. -/
def listSum : Program :=
  setFunction {} {
    name := "sum"
    arguments := ["node"]
    returns := true
    body := [
      .load "next" "node" 8,
      .call ⟨some "rest", "sum", ["next"]⟩,
      .offset "field" "node" 8,
      .load "value" "field" 8,
      .arith "total" ["value", "rest"] .integer,
      .ret none "total"] }

theorem listSum_valid : listSum.Valid := ⟨rfl, by decide⟩

variable {p : Program} {f : Function} {c : Call} {i : Instruction}

theorem mem_calls_iff : c ∈ f.calls ↔ .call c ∈ f.body := by
  simp only [Function.calls, List.mem_filterMap]
  constructor
  · rintro ⟨i, member, found⟩
    cases i <;> simp_all [Instruction.call?]
  · intro member
    exact ⟨.call c, member, rfl⟩

/-- A call of a valid program names a function, gives it as many arguments as it has, and uses its
result only if it returns one. -/
theorem Valid.callee (valid : p.Valid) (member : f ∈ p.functionList) (called : .call c ∈ f.body) :
    ∃ callee, p.function c.callee = .ok callee ∧
      c.arguments.length = callee.arguments.length ∧
      (c.result.isSome = true → callee.returns = true) := by
  have checked := forM_eq_ok_iff.mp (forM_eq_ok_iff.mp valid.calls f member) c (mem_calls_iff.mpr called)
  unfold checkCall at checked
  cases found : p.function c.callee with
  | error fault => simp [found, bind, Except.bind] at checked
  | ok callee =>
    simp only [found, bind, Except.bind] at checked
    refine ⟨callee, rfl, ?_⟩
    split at checked
    · cases checked
    · next arity =>
      split at checked
      · cases checked
      · next usable =>
        refine ⟨Decidable.not_not.mp arity, fun used => ?_⟩
        simpa [used] using usable

end Program

/-- A program whose calls all name functions has a call graph. -/
theorem CallGraph.ofProgram_eq_ok {p : Program}
    (named : ∀ f ∈ p.functionList, ∀ c ∈ f.calls, ∃ callee, p.function c.callee = .ok callee) :
    CallGraph.ofProgram p = .ok {
      nodes := p.functionList
      edges := p.functionList.flatMap fun f => f.calls.map fun c => ⟨f.name, c⟩ } := by
  have found : (p.functionList.forM fun f => f.calls.forM fun c =>
      discard (p.function c.callee)) = .ok () := by
    refine forM_eq_ok_iff.mpr fun f member => forM_eq_ok_iff.mpr fun c called => ?_
    obtain ⟨callee, found⟩ := named f member c called
    rw [found]
    rfl
  unfold CallGraph.ofProgram
  rw [found]
  rfl

/-- A rule that makes a tree of whatever its sources are. -/
def Rule.Total (r : Rule) : Prop := ∀ sources, ∃ t, r.apply sources = .ok t

theorem Rule.total_of_apply_eq {r : Rule} (f : Tree → Tree) (same : r.apply = .total f) :
    r.Total := by
  intro sources
  rw [same]
  cases sources with
  | nil => exact ⟨.empty, rfl⟩
  | cons source rest => exact ⟨f source, rfl⟩

/-- A rule that reads its own target and is not monotone: the target holds one thing as long as
nothing is known about it. -/
def Rule.guess (v : ValueId) (tag : Tag) : Rule :=
  ⟨v, [v], .total fun t => if t.isEmpty then .scalar tag else .empty, none⟩

theorem Rule.guess_total (v : ValueId) (tag : Tag) : (Rule.guess v tag).Total :=
  Rule.total_of_apply_eq _ rfl

/-- What the rules of an instruction can be. -/
inductive Rule.MadeBy : Instruction → Rule → Prop
  | same {i : Instruction} (target source : ValueId) :
    MadeBy i ⟨target, [source], .identity, some i⟩
  | fixed {result : ValueId} {operands : List ValueId} (target : ValueId) (tag : Tag) :
    MadeBy (.arith result operands tag)
      ⟨target, [], .constant tag, some (.arith result operands tag)⟩
  | load (result pointer : ValueId) (size : Nat) :
    MadeBy (.load result pointer size)
      ⟨result, [pointer], .total (.loaded size), some (.load result pointer size)⟩
  | loadBack (result pointer : ValueId) (size : Nat) :
    MadeBy (.load result pointer size)
      ⟨pointer, [result], .total .stored, some (.load result pointer size)⟩
  | store (result : Option ValueId) (value pointer : ValueId) (size : Nat) :
    MadeBy (.store result value pointer size)
      ⟨pointer, [value], .total .stored, some (.store result value pointer size)⟩
  | storeBack (result : Option ValueId) (value pointer : ValueId) (size : Nat) :
    MadeBy (.store result value pointer size)
      ⟨value, [pointer], .total (.loaded size), some (.store result value pointer size)⟩
  | offset (result pointer : ValueId) (bytes : Nat) :
    MadeBy (.offset result pointer bytes)
      ⟨result, [pointer], .total (.movedForward bytes), some (.offset result pointer bytes)⟩
  | offsetBack (result pointer : ValueId) (bytes : Nat) :
    MadeBy (.offset result pointer bytes)
      ⟨pointer, [result], .total (.movedBackward bytes), some (.offset result pointer bytes)⟩

theorem Rule.madeBy_of_mem_bothWays {a b : ValueId} {origin : Instruction} {r : Rule}
    (member : r ∈ Rule.bothWays a b origin) : r.MadeBy origin := by
  simp only [Rule.bothWays, List.mem_cons, List.not_mem_nil, or_false] at member
  rcases member with rfl | rfl
  · exact .same a b
  · exact .same b a

theorem Rule.MadeBy.total {r : Rule} {i : Instruction} (made : r.MadeBy i) : r.Total := by
  cases made with
  | fixed target tag => exact fun sources => ⟨.scalar tag, rfl⟩
  | same => exact Rule.total_of_apply_eq id rfl
  | load | loadBack | store | storeBack | offset | offsetBack =>
    exact Rule.total_of_apply_eq _ rfl

namespace Program

variable {p : Program} {f : Function} {i : Instruction}

/-- The rules of a call go both ways between its arguments and those of the callee, and from what the
callee returns to the result. -/
theorem rulesOf_call {c : Call} {callee : Function} (found : p.function c.callee = .ok callee) :
    p.rulesOf f (.call c) = .ok
      ((c.arguments.zip callee.arguments).flatMap
          (fun pair => Rule.bothWays pair.2 pair.1 (.call c)) ++
        (c.result.bind fun result => callee.returnValue?.map fun returned =>
          (⟨result, [returned], .identity, some (.call c)⟩ : Rule)).toList) := by
  simp only [rulesOf, found, bind, Except.bind]
  cases c.result <;> cases callee.returnValue? <;>
    simp [pure, Except.pure]

theorem Valid.exists_rulesOf (valid : p.Valid) (member : f ∈ p.functionList) (among : i ∈ f.body) :
    ∃ rules, p.rulesOf f i = .ok rules := by
  have allowed := valid.bodies f member i among
  cases i with
  | copy | load | store | offset | arith => exact ⟨_, rfl⟩
  | call c =>
    obtain ⟨callee, found, -, -⟩ := valid.callee member among
    exact ⟨_, rulesOf_call found⟩
  | ret result value =>
    have returns : f.returns = true := allowed
    simp [rulesOf, Function.returnValue?, returns]
  | other name result operands => cases allowed

theorem madeBy_of_mem_rulesOf {rules : List Rule} (ok : p.rulesOf f i = .ok rules) {r : Rule}
    (member : r ∈ rules) : r.MadeBy i := by
  cases i with
  | copy result operands =>
    cases ok
    obtain ⟨operand, -, among⟩ := List.mem_flatMap.mp member
    exact Rule.madeBy_of_mem_bothWays among
  | load result pointer size =>
    cases ok
    simp only [List.mem_cons, List.not_mem_nil, or_false] at member
    rcases member with rfl | rfl
    · exact .load result pointer size
    · exact .loadBack result pointer size
  | store result value pointer size =>
    cases ok
    simp only [List.mem_cons, List.not_mem_nil, or_false] at member
    rcases member with rfl | rfl
    · exact .store result value pointer size
    · exact .storeBack result value pointer size
  | offset result pointer bytes =>
    cases ok
    simp only [List.mem_cons, List.not_mem_nil, or_false] at member
    rcases member with rfl | rfl
    · exact .offset result pointer bytes
    · exact .offsetBack result pointer bytes
  | arith result operands tag =>
    cases ok
    obtain ⟨v, -, rfl⟩ := List.mem_map.mp member
    exact .fixed v tag
  | call c =>
    cases found : p.function c.callee with
    | error fault => simp [rulesOf, found, bind, Except.bind] at ok
    | ok callee =>
      rw [rulesOf_call found] at ok
      cases ok
      rcases List.mem_append.mp member with paired | last
      · obtain ⟨pair, -, among⟩ := List.mem_flatMap.mp paired
        exact Rule.madeBy_of_mem_bothWays among
      · simp only [Option.mem_toList, Option.bind_eq_some_iff, Option.map_eq_some_iff] at last
        obtain ⟨result, -, returned, -, rfl⟩ := last
        exact .same result returned
  | ret result value =>
    simp only [rulesOf] at ok
    split at ok
    · next returned _ =>
      cases ok
      rw [List.mem_singleton] at member
      subst member
      exact .same returned value
    · cases ok
  | other name result operands => cases ok

end Program

namespace RuleSystem

variable {s : RuleSystem} {v : ValueId}

/-! ## Adding rules -/

theorem mem_foldl_track (values added : List ValueId) :
    v ∈ added.foldl track values ↔ v ∈ values ∨ v ∈ added := by
  induction added generalizing values with
  | nil => simp
  | cons w rest ih =>
    have one : v ∈ track values w ↔ v ∈ values ∨ v = w := by
      unfold track
      split
      · next present =>
        constructor
        · exact Or.inl
        · rintro (member | rfl)
          · exact member
          · exact present
      · rw [List.mem_append, List.mem_singleton]
    rw [List.foldl_cons, ih, one, List.mem_cons, or_assoc]

/-- Every value that a rule names is tracked. -/
def Closed (s : RuleSystem) : Prop := ∀ r ∈ s.rules, ∀ v ∈ r.target :: r.sources, v ∈ s.tracked

/-- What adding rules does: the rules come last, and the values that they name become tracked. -/
theorem foldl_addRule_spec (s : RuleSystem) (added : List Rule) :
    (added.foldl addRule s).options = s.options ∧
      (added.foldl addRule s).graph = s.graph ∧
      (added.foldl addRule s).rules = s.rules ++ added ∧
      (∀ v ∈ s.tracked, v ∈ (added.foldl addRule s).tracked) ∧
      (s.Closed → (added.foldl addRule s).Closed) := by
  induction added generalizing s with
  | nil => simp
  | cons r rest ih =>
    obtain ⟨options, graph, rules, tracked, closed⟩ := ih (s.addRule r)
    have kept : ∀ v ∈ s.tracked, v ∈ (s.addRule r).tracked := fun v member =>
      (mem_foldl_track s.tracked _).mpr (Or.inl member)
    refine ⟨options, graph, ?_, fun v member => tracked v (kept v member), fun before => closed ?_⟩
    · rw [List.foldl_cons, rules]
      simp [addRule]
    · intro q member v named
      rcases List.mem_append.mp member with earlier | last
      · exact kept v (before q earlier v named)
      · rw [List.mem_singleton] at last
        subst last
        exact (mem_foldl_track s.tracked _).mpr (Or.inr named)

theorem mem_tracked_foldl_addRule (s : RuleSystem) (added : List Rule) :
    v ∈ (added.foldl addRule s).tracked ↔
      v ∈ s.tracked ∨ ∃ r ∈ added, v ∈ r.target :: r.sources := by
  induction added generalizing s with
  | nil => simp
  | cons r rest ih =>
    have one : v ∈ (s.addRule r).tracked ↔ v ∈ s.tracked ∨ v ∈ r.target :: r.sources :=
      mem_foldl_track s.tracked _
    simp [ih, one, or_assoc]

/-- Adding rules does not look at the options. -/
theorem foldl_addRule_options (s : RuleSystem) (options : Options) (added : List Rule) :
    added.foldl addRule { s with options } = { added.foldl addRule s with options } := by
  induction added generalizing s with
  | nil => rfl
  | cons r rest ih => exact ih (s.addRule r)

/-! ## The system of a program -/

/-- A system holds all that a program says: its values are tracked, and the rules of all its
instructions are there. -/
structure Represents (p : Program) (s : RuleSystem) : Prop where
  closed : s.Closed
  total : ∀ r ∈ s.rules, r.Total
  values : ∀ v ∈ p.values, v ∈ s.tracked
  holds : ∀ f ∈ p.functionList, ∀ i ∈ f.body, ∀ rules, p.rulesOf f i = .ok rules →
    ∀ r ∈ rules, r ∈ s.rules

variable {p : Program}

theorem exists_graph (valid : p.Valid) : ∃ graph, CallGraph.ofProgram p = .ok graph := by
  refine ⟨_, CallGraph.ofProgram_eq_ok fun f member c called => ?_⟩
  obtain ⟨callee, found, -, -⟩ := valid.callee member (Program.mem_calls_iff.mp called)
  exact ⟨callee, found⟩

theorem exists_rules (valid : p.Valid) :
    ∃ rules, (p.functionList.mapM fun f => f.body.mapM (p.rulesOf f)) = .ok rules :=
  exists_mapM_eq_ok fun _ member => exists_mapM_eq_ok fun _ among =>
    valid.exists_rulesOf member among

/-- The rules of a system are those of all instructions of a program, in the order of the program,
followed by the rules that were added. -/
def HasRulesOf (s : RuleSystem) (p : Program) (added : List Rule) : Prop :=
  ∃ own : List (List Rule),
    (p.functionList.flatMap fun f => f.body.map (p.rulesOf f)) = own.map .ok ∧
      s.rules = own.flatten ++ added

theorem HasRulesOf.mem_iff {added : List Rule} {r : Rule} (holds : s.HasRulesOf p added) :
    r ∈ s.rules ↔ (∃ f ∈ p.functionList, ∃ i ∈ f.body, ∃ own, p.rulesOf f i = .ok own ∧ r ∈ own) ∨
      r ∈ added := by
  obtain ⟨own, made, rules⟩ := holds
  have result (ofOne : List Rule) :
      ofOne ∈ own ↔ ∃ f ∈ p.functionList, ∃ i ∈ f.body, p.rulesOf f i = .ok ofOne := by
    have among : ofOne ∈ own ↔ (.ok ofOne : Except ProgramFault (List Rule)) ∈ own.map .ok := by
      simp
    rw [among, ← made]
    simp only [List.mem_flatMap, List.mem_map]
  rw [rules, List.mem_append, List.mem_flatten]
  refine or_congr_left ?_
  constructor
  · rintro ⟨ofOne, among, member⟩
    obtain ⟨f, inProgram, i, inBody, same⟩ := (result ofOne).mp among
    exact ⟨f, inProgram, i, inBody, ofOne, same, member⟩
  · rintro ⟨f, inProgram, i, inBody, ofOne, same, member⟩
    exact ⟨ofOne, (result ofOne).mpr ⟨f, inProgram, i, inBody, same⟩, member⟩

/-- What the system of a program is made of. -/
theorem ofProgram_eq_ok {options : Options} {s : RuleSystem} (ok : ofProgram p options = .ok s) :
    ∃ graph rules, graph.nodes = p.functionList ∧
      (p.functionList.mapM fun f => f.body.mapM (p.rulesOf f)) = .ok rules ∧
      s = rules.flatten.flatten.foldl addRule ⟨options, graph, p.values, []⟩ := by
  unfold ofProgram at ok
  simp only [bind, Except.bind] at ok
  split at ok
  · cases ok
  · split at ok
    · cases ok
    · next graph built =>
      split at ok
      · cases ok
      · next rules found =>
        cases ok
        refine ⟨graph, rules, ?_, found, rfl⟩
        unfold CallGraph.ofProgram at built
        simp only [bind, Except.bind] at built
        split at built
        · cases built
        · cases built
          rfl

theorem closed_of_ofProgram {options : Options} {s : RuleSystem} (ok : ofProgram p options = .ok s) :
    s.Closed := by
  obtain ⟨graph, rules, -, -, rfl⟩ := ofProgram_eq_ok ok
  obtain ⟨-, -, -, -, closed⟩ :=
    foldl_addRule_spec ⟨options, graph, p.values, []⟩ rules.flatten.flatten
  exact closed fun r member => absurd member List.not_mem_nil

/-- The rules of the system of a program to which rules were added. -/
theorem hasRulesOf_foldl_addRule {options : Options} {s : RuleSystem}
    (ok : ofProgram p options = .ok s) (added : List Rule) :
    (added.foldl addRule s).HasRulesOf p added := by
  obtain ⟨graph, rules, -, found, rfl⟩ := ofProgram_eq_ok ok
  refine ⟨rules.flatten, flatMap_map_eq_of_mapM_mapM found, ?_⟩
  rw [← List.foldl_append]
  exact (foldl_addRule_spec _ _).2.2.1

/-- A valid program has a system, which depends on the options only by holding them. -/
theorem exists_ofProgram (valid : p.Valid) :
    ∃ s, Represents p s ∧ ∀ options, ofProgram p options = .ok { s with options } := by
  obtain ⟨graph, built⟩ := exists_graph valid
  obtain ⟨rules, ok⟩ := exists_rules valid
  let start : RuleSystem := ⟨{}, graph, p.values, []⟩
  have made (options : Options) : ofProgram p options =
      .ok { rules.flatten.flatten.foldl addRule start with options } := by
    rw [← foldl_addRule_options]
    unfold ofProgram
    rw [valid.calls, built]
    simp only [bind, Except.bind, ok]
    rfl
  obtain ⟨-, -, -, kept, closed⟩ := foldl_addRule_spec start rules.flatten.flatten
  have holds := hasRulesOf_foldl_addRule (made {}) []
  refine ⟨rules.flatten.flatten.foldl addRule start, ?_, made⟩
  constructor
  · exact closed fun r member => absurd member List.not_mem_nil
  · intro r member
    rcases holds.mem_iff.mp member with ⟨f, -, i, -, own, result, among⟩ | none
    · exact (Program.madeBy_of_mem_rulesOf result among).total
    · exact absurd none List.not_mem_nil
  · exact kept
  · intro f inProgram i inBody own result r member
    exact holds.mem_iff.mpr (Or.inl ⟨f, inProgram, i, inBody, own, result, member⟩)

theorem Represents.withOptions {s : RuleSystem} (represents : Represents p s) (options : Options) :
    Represents p { s with options } :=
  ⟨represents.closed, represents.total, represents.values, represents.holds⟩

/-- Rules that cannot fail may be added to a system without it losing anything. -/
theorem Represents.foldl_addRule {s : RuleSystem} (represents : Represents p s) (added : List Rule) :
    ((added.foldl addRule s).Closed ∧ ∀ v ∈ p.values, v ∈ (added.foldl addRule s).tracked) ∧
      ((∀ r ∈ added, r.Total) → ∀ r ∈ (added.foldl addRule s).rules, r.Total) := by
  obtain ⟨-, -, held, kept, closed⟩ := foldl_addRule_spec s added
  refine ⟨⟨closed represents.closed, fun v member => kept v (represents.values v member)⟩, ?_⟩
  intro total r member
  rw [held] at member
  rcases List.mem_append.mp member with earlier | later
  · exact represents.total r earlier
  · exact total r later

end RuleSystem

end ByteLayout
