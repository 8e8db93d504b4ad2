import ByteLayout.Proofs.WorkStack

/-! # Layouts without end

A name whose layout holds the name again, with no address in between, would take infinitely many
bytes. Where all names are known and addresses at the last depth are cut off, a builder refuses
exactly the descriptors that lead to such a name within the allowed depth. Names that are shared,
that recur behind an address or that only stand in an array without elements are laid out. -/

namespace ByteLayout

namespace Descriptor

variable {registry : Registry} {d : Descriptor} {opened : List String} {depths : Nat}

/-- The layout of a name holds the name again, with no address in between. -/
def ContainsItself (registry : Registry) (name : String) : Prop :=
  ∃ d chain, registry.get? name = some d ∧ Chain registry d chain (.ref name) ∧ .any ∉ chain

/-- A descriptor leads, within `limit` dereferences, to a name that contains itself. -/
def Endless (limit : Nat) (registry : Registry) (d : Descriptor) : Prop :=
  ∃ chain name, Chain registry d chain (.ref name) ∧ chain.count .any ≤ limit ∧
    ContainsItself registry name

/-- Within `limit` dereferences there are only layouts, and all their names are known. -/
structure Resolved (limit : Nat) (registry : Registry) (d : Descriptor) : Prop where
  names : ∀ chain name, Chain registry d chain (.ref name) → chain.count .any ≤ limit →
    (registry.get? name).isSome = true
  layouts : ∀ chain datum, Chain registry d chain (.foreign datum) → ¬ chain.count .any ≤ limit

theorem Resolved.of_chain {node : Descriptor} {less : Nat} (resolved : Resolved depths registry d)
    (chain : List Hop)
    (onward : ∀ {rest last}, Chain registry node rest last → Chain registry d (chain ++ rest) last)
    (spent : chain.count .any + less ≤ depths) : Resolved less registry node := by
  have deep (rest : List Hop) (near : rest.count .any ≤ less) :
      (chain ++ rest).count .any ≤ depths := by
    rw [List.count_append]
    omega
  constructor
  · intro rest name way near
    exact resolved.names _ name (onward way) (deep rest near)
  · intro rest datum way near
    exact resolved.layouts _ datum (onward way) (deep rest near)

mutual

/-- Whether a descriptor is a layout throughout and mentions known names only. The elements of an
array that has none do not count. -/
def isStated (registry : Registry) : Descriptor → Bool
  | .scalar _ _ => true
  | .struct fields _ _ => areStated registry fields
  | .array element _ count => count = 0 || isStated registry element
  | .pointer pointee => isStated registry pointee
  | .ref name => (registry.get? name).isSome
  | .foreign _ => false
termination_by structural d => d

/-- Whether all fields of a struct are stated. -/
def areStated (registry : Registry) : List (Nat × Descriptor) → Bool
  | [] => true
  | (_, field) :: rest => isStated registry field && areStated registry rest
termination_by structural fields => fields

end

theorem areStated_iff {fields : List (Nat × Descriptor)} :
    areStated registry fields = true ↔ ∀ f ∈ fields, isStated registry f.2 = true := by
  induction fields with
  | nil => simp [areStated]
  | cons f rest ih => simp [areStated, ih]

/-- Where all layouts of a registry are stated, chains lead from stated descriptors to such. -/
theorem Chain.isStated {chain : List Hop} {node : Descriptor} (way : Chain registry d chain node)
    (all : ∀ e ∈ registry.entries, e.2.isStated registry = true)
    (stated : d.isStated registry = true) : node.isStated registry = true := by
  induction way with
  | here d => exact stated
  | field among onward ih => exact ih (areStated_iff.mp stated _ among)
  | element any onward ih =>
    rw [Descriptor.isStated, Bool.or_eq_true, decide_eq_true_eq] at stated
    exact ih (stated.resolve_left (by omega))
  | pointee onward ih => exact ih stated
  | named found onward ih => exact ih (all _ (OrderedMap.mem_entries_iff.mpr found))

theorem resolved_of_isStated (all : ∀ e ∈ registry.entries, e.2.isStated registry = true)
    (stated : d.isStated registry = true) (limit : Nat) : Resolved limit registry d := by
  constructor
  · intro chain name way _
    exact way.isStated all stated
  · intro chain datum way _
    exact Bool.false_ne_true (way.isStated all stated)

/-! ## Repetitions, constructor by constructor -/

/-- From a descriptor inside the layouts of the names `opened`, one of these names is met again before
any address, or a name that contains itself is met within so many dereferences. -/
def Repeats (depths : Nat) (registry : Registry) (opened : List String) (d : Descriptor) : Prop :=
  ∃ chain name, Chain registry d chain (.ref name) ∧
    ((.any ∉ chain ∧ name ∈ opened) ∨
      (chain.count .any ≤ depths ∧ ContainsItself registry name))

theorem repeats_nil_iff : Repeats depths registry [] d ↔ Endless depths registry d := by
  simp [Repeats, Endless]

theorem not_repeats_scalar {tag : Tag} {size : Option Nat} :
    ¬ Repeats depths registry opened (.scalar tag size) := by
  rintro ⟨chain, name, way, -⟩
  cases way

theorem repeats_struct {fields : List (Nat × Descriptor)} {name : Option String}
    {size : Option Int} :
    Repeats depths registry opened (.struct fields name size) ↔
      ∃ f ∈ fields, Repeats depths registry opened f.2 := by
  constructor
  · rintro ⟨chain, again, way, repeated⟩
    cases way with
    | field among onward => exact ⟨_, among, _, again, onward, by simpa using repeated⟩
  · rintro ⟨f, among, chain, again, onward, repeated⟩
    exact ⟨_, again, .field among onward, by simpa using repeated⟩

theorem repeats_array {element : Descriptor} {stride count : Nat} :
    Repeats depths registry opened (.array element stride count) ↔
      0 < count ∧ Repeats depths registry opened element := by
  constructor
  · rintro ⟨chain, again, way, repeated⟩
    cases way with
    | element any onward => exact ⟨any, _, again, onward, by simpa using repeated⟩
  · rintro ⟨any, chain, again, onward, repeated⟩
    exact ⟨_, again, .element any onward, by simpa using repeated⟩

/-- Behind an address all names may be met again. -/
theorem repeats_pointer {pointee : Descriptor} :
    Repeats depths registry opened (.pointer pointee) ↔
      ∃ less, depths = less + 1 ∧ Repeats less registry [] pointee := by
  constructor
  · rintro ⟨chain, again, way, repeated⟩
    cases way with
    | pointee onward =>
      rcases repeated with ⟨free, -⟩ | ⟨near, contains⟩
      · exact absurd List.mem_cons_self free
      · rw [List.count_cons_self] at near
        exact ⟨depths - 1, by omega, _, again, onward, Or.inr ⟨by omega, contains⟩⟩
  · rintro ⟨less, rfl, chain, again, onward, repeated⟩
    rcases repeated with ⟨-, none⟩ | ⟨near, contains⟩
    · exact absurd none List.not_mem_nil
    · exact ⟨_, again, .pointee onward, Or.inr ⟨by rw [List.count_cons_self]; omega, contains⟩⟩

theorem repeats_ref_of_mem {name : String} (member : name ∈ opened) :
    Repeats depths registry opened (.ref name) :=
  ⟨[], name, .here _, Or.inl ⟨List.not_mem_nil, member⟩⟩

/-- Opening a name makes a repetition of a name that contains itself. -/
theorem repeats_ref {name : String} (new : name ∉ opened) (found : registry.get? name = some d) :
    Repeats depths registry opened (.ref name) ↔
      Repeats depths registry (opened ++ [name]) d := by
  constructor
  · rintro ⟨chain, again, way, repeated⟩
    cases way with
    | here =>
      rcases repeated with ⟨-, member⟩ | ⟨-, e, chain, found', way, free⟩
      · exact absurd member new
      · rw [found, Option.some.injEq] at found'
        subst found'
        exact ⟨chain, name, way, Or.inl ⟨free, by simp⟩⟩
    | named found' onward =>
      rw [found, Option.some.injEq] at found'
      subst found'
      refine ⟨chain, again, onward, repeated.imp_left fun ⟨free, member⟩ => ⟨free, ?_⟩⟩
      exact List.mem_append_left _ member
  · rintro ⟨chain, again, onward, repeated⟩
    rcases repeated with ⟨free, member⟩ | contains
    · rcases List.mem_append.mp member with old | last
      · exact ⟨chain, again, .named found onward, Or.inl ⟨free, old⟩⟩
      · rw [List.mem_singleton] at last
        subst last
        exact ⟨[], again, .here _, Or.inr ⟨Nat.zero_le _, d, chain, found, onward, free⟩⟩
    · exact ⟨chain, again, .named found onward, Or.inr contains⟩

/-! ## Walks that are refused -/

/-- A walk comes to its end unless something is repeated; then it is refused for a name that contains
itself. -/
def Judges (walk : Walk) (repeated : Prop) : Prop :=
  ∀ trail, (¬ repeated ∧ ∃ trail', walk trail = .ok trail') ∨
    (repeated ∧ ∃ name opened truncations,
      walk trail = .error ⟨.fault (.containsItself name opened), truncations⟩)

section Judging

variable {walk after : Walk} {repeated repeated' : Prop}

theorem Judges.congr (judges : Judges walk repeated) (same : repeated ↔ repeated') :
    Judges walk repeated' := by
  intro trail
  rw [← same]
  exact judges trail

theorem judges_ok (free : ¬ repeated) : Judges .ok repeated :=
  fun trail => Or.inl ⟨free, trail, rfl⟩

theorem judges_containsItself (name : String) (opened : List String) (holds : repeated) :
    Judges (halt (.fault (.containsItself name opened))) repeated :=
  fun _ => Or.inr ⟨holds, name, opened, _, rfl⟩

theorem Judges.andThen (judges : Judges walk repeated) (judges' : Judges after repeated') :
    Judges (walk.andThen after) (repeated ∨ repeated') := by
  intro trail
  unfold Walk.andThen
  rcases judges trail with ⟨free, between, walked⟩ | ⟨holds, name, opened, truncations, refused⟩
  · simp only [walked, free, false_or]
    exact judges' between
  · simp only [refused]
    exact Or.inr ⟨Or.inl holds, name, opened, truncations, rfl⟩

theorem Judges.comp (judges : Judges walk repeated) (change : Trail → Trail) :
    Judges (fun trail => walk (change trail)) repeated := fun trail => judges (change trail)

end Judging

/-- A walk is refused for repetitions only, if this is so at addresses. -/
theorem judges_steps {onPointer : Path → Descriptor → Walk}
    (pointers : ∀ opened p pointee, Resolved depths registry (.pointer pointee) →
      Judges (onPointer p pointee) (Repeats depths registry opened (.pointer pointee))) :
    WalkSteps registry onPointer
      (fun opened _ d walk => Resolved depths registry d →
        Judges walk (Repeats depths registry opened d))
      (fun opened _ fields walk => (∀ f ∈ fields, Resolved depths registry f.2) →
        Judges walk (∃ f ∈ fields, Repeats depths registry opened f.2)) where
  scalar _ p tag _ _ := (judges_ok not_repeats_scalar).comp fun trail => trail.add p tag
  struct _ _ _ _ _ _ inner resolved := by
    refine (inner fun f among => ?_).congr repeats_struct.symm
    exact resolved.of_chain [.byte f.1] (fun way => .field among way) (by simp)
  nil _ _ _ := judges_ok (by simp)
  cons _ _ _ _ _ _ _ first later resolved := by
    have onward := later fun f among => resolved f (List.mem_cons_of_mem _ among)
    exact ((first (resolved _ List.mem_cons_self)).andThen onward).congr (by simp)
  element _ _ _ _ _ _ any inner resolved := by
    refine (inner ?_).congr ?_
    · exact resolved.of_chain [.byte 0] (fun way => .element any way) (by simp)
    · rw [repeats_array, and_iff_right any]
  hollow _ _ _ _ _ := judges_ok fun repeated => Nat.lt_irrefl 0 (repeats_array.mp repeated).1
  pointer opened p pointee resolved := pointers opened p pointee resolved
  again _ _ _ member _ := judges_containsItself _ _ (repeats_ref_of_mem member)
  missing _ _ name _ missing resolved := by
    have known := resolved.names [] name (.here _) (Nat.zero_le _)
    rw [missing] at known
    cases known
  named _ _ _ _ _ new found inner resolved := by
    refine (inner ?_).congr (repeats_ref new found).symm
    exact resolved.of_chain [] (fun way => .named found way) (by simp)
  foreign _ _ datum resolved := absurd (Nat.zero_le _) (resolved.layouts [] datum (.here _))

/-- Where addresses at the last depth are cut off, a walk is refused exactly if a name that contains
itself lies within the allowed depth. -/
theorem judges_walk {options : Options} (lenient : options.recursionLimitFatal = false)
    (d : Descriptor) (p : Path) (resolved : Resolved depths registry d) :
    Judges (walk options registry depths p d) (Repeats depths registry [] d) := by
  induction depths generalizing d p with
  | zero =>
    refine (judges_steps fun opened q pointee _ => ?_).walkAmong (.nil registry) (by simp) d p
      resolved
    have free : ¬ Repeats 0 registry opened (.pointer pointee) := by
      rintro repeated
      obtain ⟨less, impossible, -⟩ := repeats_pointer.mp repeated
      omega
    exact fun trail => Or.inl ⟨free, _, if_neg (by simp [lenient])⟩
  | succ depths ih =>
    refine (judges_steps fun opened q pointee behind => ?_).walkAmong (.nil registry) (by simp) d p
      resolved
    refine ((ih pointee (q.append (.byte 0)) ?_).congr ?_).comp fun trail => trail.add q .pointer
    · exact behind.of_chain [.any] (fun way => .pointee way) (by simp; omega)
    · rw [repeats_pointer]
      simp

end Descriptor

namespace Builder

/-- What a builder makes of all that a walk has met. -/
def finish (b : Builder) (trail : Descriptor.Trail) : Descriptor.Layout × Builder :=
  (⟨.ofEntries b.options.policy trail.entries, trail.truncations⟩,
    { b with report := trail.truncations })

theorem build_eq (b : Builder) (current : Registry) (root : Path) (d : Descriptor) :
    b.build current root d = (Descriptor.walk b.options (b.registry current)
      (b.options.maxDepth - root.depth) root d {}).map b.finish := by
  unfold build Descriptor.layout
  cases Descriptor.walk b.options (b.registry current) (b.options.maxDepth - root.depth) root d {} <;>
    rfl

/-- Whatever the registry, working off a descriptor with a stack comes to an end with one answer, from
which the builder makes its own. Where all names within the allowed depth are known and addresses at
the last depth are cut off, the builder refuses exactly the descriptors that lead to a name that
contains itself, and it lays out all others. -/
theorem build_refuses_iff_endless (b : Builder) (current : Registry) (root : Path)
    (d : Descriptor) :
    (∃ answer, (∀ other, Descriptor.Ends b.options (b.registry current) [⟨d, root, []⟩] {} other ↔
        other = answer) ∧ b.build current root d = answer.map b.finish) ∧
    (d.Resolved (b.options.maxDepth - root.depth) (b.registry current) →
      b.options.recursionLimitFatal = false →
      ((∃ fault truncations, b.build current root d = .error ⟨.fault fault, truncations⟩) ↔
        d.Endless (b.options.maxDepth - root.depth) (b.registry current)) ∧
      (¬ d.Endless (b.options.maxDepth - root.depth) (b.registry current) →
        ∃ l b', b.build current root d = .ok (l, b'))) := by
  refine ⟨⟨_, (Descriptor.performs_walk b.options _ d root rfl).ends_iff {}, build_eq ..⟩,
    fun resolved lenient => ?_⟩
  have judged := Descriptor.judges_walk lenient d root resolved {}
  rw [Descriptor.repeats_nil_iff] at judged
  rw [build_eq]
  rcases judged with ⟨finite, trail, walked⟩ | ⟨endless, name, opened, truncations, refused⟩
  · rw [walked]
    refine ⟨⟨?_, fun endless => absurd endless finite⟩, fun _ => ⟨_, _, rfl⟩⟩
    rintro ⟨fault, truncations, failed⟩
    cases failed
  · rw [refused]
    exact ⟨⟨fun _ => endless, fun _ => ⟨_, _, rfl⟩⟩, fun finite => absurd endless finite⟩

/-- A builder that knows nodes with two equal fields and an address of the next node, and chains of
blocks in which every block holds two chains. An empty array of nodes stands in every node. -/
def loops : Builder where
  options := { (default : Options) with maxDepth := 1, maxDepth_pos := Nat.le_refl 1 }
  names := .own (.ofList [
    ("node", .struct [(0, .ref "cell"), (8, .ref "cell"), (16, .pointer (.ref "node")),
      (24, .array (.ref "node") 24 0)] none none),
    ("cell", .scalar .integer none),
    ("chain", .struct [(0, .ref "cell"), (8, .ref "block")] none none),
    ("block", .array (.ref "chain") 8 2)])

/-- Nodes are laid out although they share a name, recur behind an address and hold an empty array of
themselves. A chain within one dereference is refused; behind two it is not met. -/
theorem build_refuses_iff_endless_loops :
    (∀ d ∈ [Descriptor.ref "node", .pointer (.ref "chain"), .pointer (.pointer (.ref "chain"))],
        d.Resolved 1 (loops.registry .empty)) ∧
      ¬ (Descriptor.ref "node").Endless 1 (loops.registry .empty) ∧
      (Descriptor.pointer (.ref "chain")).Endless 1 (loops.registry .empty) ∧
      ¬ (Descriptor.pointer (.pointer (.ref "chain"))).Endless 1 (loops.registry .empty) := by
  have resolved : ∀ d ∈ [Descriptor.ref "node", .pointer (.ref "chain"),
      .pointer (.pointer (.ref "chain"))], d.Resolved 1 (loops.registry .empty) := by
    intro d among
    exact Descriptor.resolved_of_isStated (by decide) (by revert d; decide) 1
  have judged (d : Descriptor) (member : d ∈ [Descriptor.ref "node", .pointer (.ref "chain"),
      .pointer (.pointer (.ref "chain"))]) :=
    ((build_refuses_iff_endless loops .empty .root d).2 (resolved d member) rfl).1
  refine ⟨resolved, fun endless => ?_, (judged _ (by simp)).mp ⟨_, _, rfl⟩, fun endless => ?_⟩
  · obtain ⟨fault, truncations, failed⟩ := (judged _ (by simp)).mpr endless
    cases failed
  · obtain ⟨fault, truncations, failed⟩ := (judged _ (by simp)).mpr endless
    cases failed

end Builder

end ByteLayout
