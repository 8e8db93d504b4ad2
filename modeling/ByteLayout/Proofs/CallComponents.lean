import ByteLayout.OrderedMap.Lemmas
import ByteLayout.Proofs.FrameSearch
import ByteLayout.Proofs.ProgramSystem
import Mathlib.Data.List.Pairwise

/-! # Components of the call graph

Functions that call each other, directly or through others, form a component of the call graph. The
components of a program hold every function once. A component is recursive exactly if one of its
functions reaches itself through calls. Components are listed callees first, so that in the
bottom-up order whatever a function reaches outside its own component comes before it. -/

namespace ByteLayout

namespace Graph.Decomposes

variable {α : Type} {successors : α → List α} {vertices : List α} {groups : List (List α)} {u v : α}

theorem perm (decomposes : Decomposes successors vertices groups) (distinct : vertices.Nodup) :
    groups.flatten.Perm vertices :=
  (List.perm_ext_iff_of_nodup decomposes.nodup distinct).mpr decomposes.covers

theorem exists_group (decomposes : Decomposes successors vertices groups) (vertex : u ∈ vertices) :
    ∃ group ∈ groups, u ∈ group :=
  List.mem_flatten.mp ((decomposes.covers u).mpr vertex)

/-- No vertex is in two groups. -/
theorem group_unique (decomposes : Decomposes successors vertices groups) {group other : List α}
    (among : group ∈ groups) (member : u ∈ group) (among' : other ∈ groups) (member' : u ∈ other) :
    group = other := by
  by_contra different
  have disjoint := (List.nodup_flatten.mp decomposes.nodup).2
  have : Std.Symm (@List.Disjoint α) := ⟨fun _ _ apart _ inLeft inRight => apart inRight inLeft⟩
  exact disjoint.forall among among' different member member'

theorem together_iff (decomposes : Decomposes successors vertices groups) (vertex : u ∈ vertices) :
    (∃ group ∈ groups, u ∈ group ∧ v ∈ group) ↔
      Reaches successors u v ∧ Reaches successors v u := by
  constructor
  · rintro ⟨group, among, member, member'⟩
    exact (decomposes.strong group among u member v).mp member'
  · intro ways
    obtain ⟨group, among, member⟩ := decomposes.exists_group vertex
    exact ⟨group, among, member, (decomposes.strong group among u member v).mpr ways⟩

/-- What a vertex reaches is in its own group or in one that is listed before it. -/
theorem listed_before (decomposes : Decomposes successors vertices groups) (vertex : u ∈ vertices)
    (way : Reaches successors u v) :
    (∃ group ∈ groups, u ∈ group ∧ v ∈ group) ∨
      ((∃ earlier group, [earlier, group].Sublist groups ∧ v ∈ earlier ∧ u ∈ group) ∧
        [v, u].Sublist groups.flatten) := by
  obtain ⟨group, among, member⟩ := decomposes.exists_group vertex
  obtain ⟨before, after, split⟩ := List.append_of_mem among
  rcases decomposes.order.mem_of_reaches split member way with listed | same
  · right
    obtain ⟨earlier, among', member'⟩ := List.mem_flatten.mp listed
    have later : u ∈ (group :: after).flatten := by
      rw [List.flatten_cons]
      exact List.mem_append_left _ member
    rw [split, List.flatten_append]
    refine ⟨⟨earlier, group, ?_, member', member⟩, ?_⟩
    · exact (List.singleton_sublist.mpr among').append
        (List.singleton_sublist.mpr List.mem_cons_self)
    · exact (List.singleton_sublist.mpr listed).append (List.singleton_sublist.mpr later)
  · exact Or.inl ⟨group, among, member, same⟩

/-- Two vertices of one group reach themselves through edges. -/
theorem transGen_of_ne (decomposes : Decomposes successors vertices groups) {group : List α}
    (among : group ∈ groups) (member : u ∈ group) (member' : v ∈ group) (different : u ≠ v) :
    Relation.TransGen (Edge successors) u u := by
  obtain ⟨forth, back⟩ := (decomposes.strong group among u member v).mp member'
  rcases Relation.reflTransGen_iff_eq_or_transGen.mp forth with same | way
  · exact absurd same.symm different
  · exact way.trans_left back

end Graph.Decomposes

/-! ## Programs whose calls can be followed -/

namespace Program

variable {p : Program} {f : Function} {caller callee : String}

/-- Every function is stored under its own name, as in every program that is made by adding and
changing functions. -/
def Named (p : Program) : Prop := ∀ name f, p.functions.get? name = some f → f.name = name

/-- Every call names a function of the program. -/
def Linked (p : Program) : Prop :=
  ∀ f ∈ p.functionList, ∀ c ∈ f.calls, (p.functions.get? c.callee).isSome = true

instance (p : Program) : Decidable p.Linked :=
  inferInstanceAs (Decidable (∀ f ∈ p.functionList, ∀ c ∈ f.calls, _))

/-- A function of the program calls another one. -/
def Calls (p : Program) (caller callee : String) : Prop :=
  ∃ f ∈ p.functionList, f.name = caller ∧ ∃ c ∈ f.calls, c.callee = callee

instance (p : Program) (caller callee : String) : Decidable (p.Calls caller callee) :=
  inferInstanceAs (Decidable (∃ f ∈ p.functionList, f.name = caller ∧ ∃ c ∈ f.calls, _))

theorem named_empty : Named {} := fun name f found => by simp at found

theorem Named.setFunction (named : p.Named) (f : Function) : (p.setFunction f).Named := by
  intro name g found
  rw [Program.setFunction, OrderedMap.get?_insert] at found
  split at found
  · next same =>
    cases found
    exact same.symm
  · exact named name g found

theorem Named.addFunction {p' : Program} (named : p.Named) (ok : p.addFunction f = .ok p') :
    p'.Named := by
  unfold Program.addFunction at ok
  split at ok
  · cases ok
  · cases ok
    exact named.setFunction f

theorem Named.seed (named : p.Named) (v : ValueId) (t : Tree) : (p.seed v t).Named := named

theorem Named.names_eq (named : p.Named) : p.functionList.map Function.name = p.functions.keys := by
  unfold functionList OrderedMap.keys
  rw [List.map_map]
  refine List.map_congr_left fun e member => ?_
  exact named e.1 e.2 (OrderedMap.mem_entries_iff.mp member)

/-- A linked program has a call graph, whose nodes are its functions and whose edges are its
calls. -/
theorem Linked.exists_graph (linked : p.Linked) :
    ∃ g, CallGraph.ofProgram p = .ok g ∧ g.nodes = p.functionList ∧
      Graph.Edge g.callees = p.Calls := by
  have found : ∀ f ∈ p.functionList, ∀ c ∈ f.calls, ∃ callee, p.function c.callee = .ok callee := by
    intro f member c called
    obtain ⟨callee, stored⟩ := Option.isSome_iff_exists.mp (linked f member c called)
    exact ⟨callee, by simp [function, stored]⟩
  refine ⟨_, CallGraph.ofProgram_eq_ok found, rfl, ?_⟩
  funext caller callee
  apply propext
  simp only [Graph.Edge, CallGraph.callees, Calls, List.mem_map, List.mem_filter, List.mem_flatMap,
    decide_eq_true_eq]
  constructor
  · rintro ⟨e, ⟨⟨f, member, c, called, rfl⟩, rfl⟩, rfl⟩
    exact ⟨f, member, rfl, c, called, rfl⟩
  · rintro ⟨f, member, rfl, c, called, rfl⟩
    exact ⟨⟨f.name, c⟩, ⟨⟨f, member, c, called, rfl⟩, rfl⟩, rfl⟩

/-- The calls of a linked program lead from function to function. -/
theorem Named.exists_graph (named : p.Named) (linked : p.Linked) :
    ∃ g, CallGraph.ofProgram p = .ok g ∧ g.names = p.functions.keys ∧
      Graph.Edge g.callees = p.Calls ∧ Graph.Closed g.callees g.names := by
  obtain ⟨g, built, nodes, edges⟩ := linked.exists_graph
  have names : g.names = p.functions.keys := by rw [CallGraph.names, nodes, named.names_eq]
  refine ⟨g, built, names, edges, ?_⟩
  intro caller node callee edge
  rw [edges] at edge
  obtain ⟨f, member, -, c, called, rfl⟩ := edge
  rw [names, OrderedMap.mem_keys_iff]
  exact linked f member c called

end Program

namespace CallGraph

/-- A component is recursive when one of its functions reaches itself through calls. -/
theorem isRecursive_iff {g : CallGraph} {vertices group : List String}
    (decomposes : Graph.Decomposes g.callees vertices g.components) (among : group ∈ g.components) :
    g.isRecursive group = true ↔ ∃ f ∈ group, Relation.TransGen (Graph.Edge g.callees) f f := by
  constructor
  · intro recursive
    match group, recursive with
    | [name], recursive =>
      have called : name ∈ g.callees name := by
        simpa [isRecursive, isSelfRecursive] using recursive
      exact ⟨name, List.mem_cons_self, .single called⟩
    | first :: second :: rest, _ =>
      have nodup := (List.nodup_flatten.mp decomposes.nodup).1 _ among
      have different : first ≠ second := by
        intro same
        simp [same] at nodup
      exact ⟨first, List.mem_cons_self,
        decomposes.transGen_of_ne among List.mem_cons_self (by simp) different⟩
  · rintro ⟨f, member, cycle⟩
    -- The first step of the cycle stays in the component.
    obtain ⟨next, edge, back⟩ := Relation.TransGen.head'_iff.mp cycle
    have inside := (decomposes.strong group among f member next).mpr ⟨.single edge, back⟩
    match group, member, inside with
    | [name], member, inside =>
      rw [List.mem_singleton] at member inside
      subst member
      subst inside
      change next ∈ g.callees next at edge
      simpa [isRecursive, isSelfRecursive] using edge
    | first :: second :: rest, _, _ => simp [isRecursive]

end CallGraph

namespace Program

/-- A program in which two functions call each other, another one calls itself, and the first one
calls one of the two, twice, and the other one. -/
def parity : Program :=
  [({ name := "main", body := [.call ⟨none, "even", []⟩, .call ⟨none, "even", []⟩,
      .call ⟨none, "factorial", []⟩] } : Function),
    { name := "even", body := [.call ⟨none, "odd", []⟩] },
    { name := "odd", body := [.call ⟨none, "even", []⟩] },
    { name := "factorial", body := [.call ⟨none, "factorial", []⟩] }].foldl setFunction {}

theorem parity_named : parity.Named :=
  (((named_empty.setFunction _).setFunction _).setFunction _).setFunction _

theorem parity_linked : parity.Linked := by decide

theorem parity_components {g : CallGraph} (built : CallGraph.ofProgram parity = .ok g) :
    g.names = ["main", "even", "odd", "factorial"] ∧
      g.components = [["odd", "even"], ["factorial"], ["main"]] := by
  have computed : (CallGraph.ofProgram parity).toOption.map (fun g => (g.names, g.components)) =
      some (["main", "even", "odd", "factorial"], [["odd", "even"], ["factorial"], ["main"]]) := by
    decide +kernel
  rw [built] at computed
  exact Prod.ext_iff.mp (Option.some.inj computed)

/-- For every program whose calls can be followed, the components of the call graph hold each
function once, two functions are in one component exactly if each reaches the other through calls,
and the recursive components are those with a function that reaches itself through at least one
call. A search that keeps a stack of frames, in place of calling itself, comes to an end with these
components in this order. -/
theorem components_stronglyConnected {p : Program} (named : p.Named) (linked : p.Linked) :
    ∃ g, CallGraph.ofProgram p = .ok g ∧
      (g.names = p.functions.keys ∧ g.components.flatten.Perm g.names ∧
        ∀ f ∈ g.names, ∃! group, group ∈ g.components ∧ f ∈ group) ∧
      (∀ f ∈ g.names, ∀ h ∈ g.names, (∃ group ∈ g.components, f ∈ group ∧ h ∈ group) ↔
        Relation.ReflTransGen p.Calls f h ∧ Relation.ReflTransGen p.Calls h f) ∧
      (g.recursiveComponents.Sublist g.components ∧
        ∀ group ∈ g.components, group ∈ g.recursiveComponents ↔
          ∃ f ∈ group, Relation.TransGen p.Calls f f) ∧
      ∀ groups, Graph.Finds g.callees g.names groups ↔ groups = g.components := by
  obtain ⟨g, built, names, edges, closed⟩ := named.exists_graph linked
  have decomposes : Graph.Decomposes g.callees g.names g.components :=
    Graph.components_decomposes closed
  have distinct : g.names.Nodup := by
    rw [names]
    exact p.functions.nodup
  refine ⟨g, built, ⟨names, decomposes.perm distinct, ?_⟩, ?_, ⟨List.filter_sublist, ?_⟩,
    fun groups => Graph.finds_iff closed⟩
  · intro f node
    obtain ⟨group, among, member⟩ := decomposes.exists_group node
    refine ⟨group, ⟨among, member⟩, ?_⟩
    rintro other ⟨among', member'⟩
    exact decomposes.group_unique among' member' among member
  · intro f node h _
    rw [← edges]
    exact decomposes.together_iff node
  · intro group among
    rw [CallGraph.recursiveComponents, List.mem_filter, ← edges]
    exact (and_iff_right among).trans (CallGraph.isRecursive_iff decomposes among)

/-- The two functions that call each other are found in one component, so each reaches the other;
the function that calls them is not reached by them. -/
theorem components_stronglyConnected_parity :
    parity.Named ∧ parity.Linked ∧
      Relation.ReflTransGen parity.Calls "even" "odd" ∧
      Relation.ReflTransGen parity.Calls "odd" "even" ∧
      ¬ (Relation.ReflTransGen parity.Calls "main" "even" ∧
        Relation.ReflTransGen parity.Calls "even" "main") := by
  obtain ⟨g, built, -, together, -⟩ := components_stronglyConnected parity_named parity_linked
  obtain ⟨names, groups⟩ := parity_components built
  rw [names, groups] at together
  have ways := (together "even" (by decide) "odd" (by decide)).mp (by decide)
  exact ⟨parity_named, parity_linked, ways.1, ways.2,
    (together "main" (by decide) "even" (by decide)).not.mp (by decide)⟩

/-- For every program whose calls can be followed, a called function is in the component of its
caller or in one that is listed earlier. So the bottom-up order lists each function once, after all
functions outside its component that it reaches through calls. -/
theorem bottomUp_calleesFirst {p : Program} (named : p.Named) (linked : p.Linked) :
    ∃ g, CallGraph.ofProgram p = .ok g ∧
      (∀ f h, p.Calls f h →
        (∃ group ∈ g.components, f ∈ group ∧ h ∈ group) ∨
          ∃ earlier group, [earlier, group].Sublist g.components ∧ h ∈ earlier ∧ f ∈ group) ∧
      (g.names = p.functions.keys ∧ g.bottomUp.Perm g.names) ∧
      ∀ f ∈ g.names, ∀ h, Relation.ReflTransGen p.Calls f h →
        (¬ ∃ group ∈ g.components, f ∈ group ∧ h ∈ group) → [h, f].Sublist g.bottomUp := by
  obtain ⟨g, built, names, edges, closed⟩ := named.exists_graph linked
  have decomposes : Graph.Decomposes g.callees g.names g.components :=
    Graph.components_decomposes closed
  have distinct : g.names.Nodup := by
    rw [names]
    exact p.functions.nodup
  refine ⟨g, built, ?_, ⟨names, decomposes.perm distinct⟩, ?_⟩
  · rintro f h calls
    have node : f ∈ g.names := by
      obtain ⟨caller, member, rfl, -⟩ := calls
      rw [names, ← named.names_eq]
      exact List.mem_map_of_mem member
    rw [← edges] at calls
    exact (decomposes.listed_before node (.single calls)).imp_right And.left
  · intro f node h way apart
    rw [← edges] at way
    exact ((decomposes.listed_before node way).resolve_left apart).2

/-- A function that is only reached, not reaching back, comes before the one that calls it. -/
theorem bottomUp_calleesFirst_parity :
    parity.Named ∧ parity.Linked ∧
      ∃ g, CallGraph.ofProgram parity = .ok g ∧
        ["odd", "main"].Sublist g.bottomUp ∧ ["factorial", "main"].Sublist g.bottomUp := by
  obtain ⟨g, built, -, -, before⟩ := bottomUp_calleesFirst parity_named parity_linked
  obtain ⟨names, groups⟩ := parity_components built
  rw [names, groups] at before
  have even : parity.Calls "main" "even" := by decide
  have odd : parity.Calls "even" "odd" := by decide
  have factorial : parity.Calls "main" "factorial" := by decide
  exact ⟨parity_named, parity_linked, g, built,
    before "main" (by decide) "odd" (.tail (.single even) odd) (by decide),
    before "main" (by decide) "factorial" (.single factorial) (by decide)⟩

end Program

end ByteLayout
