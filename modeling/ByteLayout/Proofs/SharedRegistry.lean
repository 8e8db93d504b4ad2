import ByteLayout.Proofs.DepthLimit
import ByteLayout.Proofs.DerivedSizes
import ByteLayout.Proofs.ProgramSystem

/-! # Builders that share a registry

A registry is defined further while builders that were made with it lay out descriptors. A builder
keeps its options and the source of its names through all calls; only its report changes. If the
registry had a definition when the builder was made, the builder always lays out like one that is
made on the spot. If it had none, the builder goes on looking at an empty registry of its own, and
fails at every name that is defined afterwards. -/

namespace ByteLayout

/-! ## Names that a walk misses -/

namespace Descriptor

/-- Whatever name a walk fails to resolve is missing in a registry. -/
def Walk.MissesRightly (registry : Registry) (walk : Walk) : Prop :=
  ∀ trail name truncations, walk trail = .error ⟨.fault (.unresolved name), truncations⟩ →
    registry.get? name = none

section Missing

variable {registry : Registry} {walk after : Walk}

theorem missesRightly_ok (change : Trail → Trail) :
    Walk.MissesRightly registry fun trail => .ok (change trail) := by
  intro trail name truncations failed
  cases failed

theorem missesRightly_halt {stop : Stop}
    (rightly : ∀ name, stop = .fault (.unresolved name) → registry.get? name = none) :
    (halt stop).MissesRightly registry := by
  intro trail name truncations failed
  cases failed
  exact rightly name rfl

theorem Walk.MissesRightly.andThen (first : walk.MissesRightly registry)
    (later : after.MissesRightly registry) : (walk.andThen after).MissesRightly registry := by
  intro trail name truncations failed
  unfold Walk.andThen at failed
  split at failed
  · next failure early =>
    cases failed
    exact first trail name truncations early
  · next between walked => exact later between name truncations failed

theorem missesRightly_steps {onPointer : Path → Descriptor → Walk}
    (pointers : ∀ p pointee, (onPointer p pointee).MissesRightly registry) :
    WalkSteps registry onPointer (fun _ _ _ walk => walk.MissesRightly registry)
      (fun _ _ _ walk => walk.MissesRightly registry) where
  scalar _ p tag _ := missesRightly_ok fun trail => trail.add p tag
  struct _ _ _ _ _ _ inner := inner
  nil _ _ := missesRightly_ok id
  cons _ _ _ _ _ _ _ first later := first.andThen later
  element _ _ _ _ _ _ _ inner := inner
  hollow _ _ _ _ := missesRightly_ok id
  pointer _ p pointee := pointers p pointee
  again _ _ _ _ := missesRightly_halt fun _ other => by cases other
  missing _ _ name _ missing := missesRightly_halt fun other same => by cases same; exact missing
  named _ _ _ _ _ _ _ inner := inner
  foreign _ _ _ := missesRightly_halt fun _ other => by cases other

/-- A walk fails to resolve only those names that are not defined. -/
theorem missesRightly_walk (options : Options) (registry : Registry) (depths : Nat) (p : Path)
    (d : Descriptor) : (Descriptor.walk options registry depths p d).MissesRightly registry := by
  induction depths generalizing p d with
  | zero =>
    refine (missesRightly_steps fun q pointee => ?_).walkAmong (.nil registry) (by simp) d p
    intro trail name truncations failed
    unfold cutOff at failed
    dsimp only at failed
    split at failed
    · exact missesRightly_halt (fun _ other => by cases other) _ name truncations failed
    · cases failed
  | succ depths ih =>
    refine (missesRightly_steps fun q pointee => ?_).walkAmong (.nil registry) (by simp) d p
    exact fun trail => ih (q.append (.byte 0)) pointee (trail.add q .pointer)

end Missing

theorem get?_of_layout_unresolved {options : Options} {registry : Registry} {root : Path}
    {d : Descriptor} {name : String} {truncations : List Truncation}
    (failed : d.layout options registry root = .error ⟨.fault (.unresolved name), truncations⟩) :
    registry.get? name = none := by
  unfold layout at failed
  split at failed
  · next failure early =>
    cases failed
    exact missesRightly_walk options registry _ root d {} name truncations early
  · cases failed

/-- Without definitions no name is resolved. -/
theorem layout_ref_empty (options : Options) (root : Path) (name : String) :
    (ref name).layout options .empty root = .error ⟨.fault (.unresolved name), []⟩ := by
  unfold layout
  cases options.maxDepth - root.depth <;> rfl

/-- Definitions make no difference to any layout only if there are none. -/
theorem layout_empty_eq_iff {options : Options} {registry : Registry} {root : Path} :
    (∀ d : Descriptor, d.layout options .empty root = d.layout options registry root) ↔
      registry.isEmpty = true := by
  constructor
  · intro same
    rw [OrderedMap.isEmpty_iff_get?]
    intro name
    have failed := same (ref name)
    rw [layout_ref_empty] at failed
    exact get?_of_layout_unresolved failed.symm
  · intro none d
    rw [OrderedMap.isEmpty_iff.mp none]

theorem tree_eq (options : Options) (registry : Registry) (d : Descriptor) :
    d.tree options (some registry) = d.layout options registry .root := by
  have looksAt := Builder.registry_create options (some registry)
  unfold tree
  dsimp only
  rw [looksAt, Option.getD_some]

end Descriptor

/-! ## What a builder answers -/

namespace Builder

theorem map_fst_build (b : Builder) (current : Registry) (root : Path) (d : Descriptor) :
    (b.build current root d).map Prod.fst = d.layout b.options (b.registry current) root := by
  unfold build
  cases d.layout b.options (b.registry current) root <;> rfl

end Builder

/-! ## Calls -/

/-- A registry, and the builders that were made with it. -/
structure Workshop where
  registry : Registry
  builders : List Builder := []

namespace Workshop

variable {w : Workshop} {b : Builder} {n : Nat}

/-- A call on the registry or on one of the builders. -/
inductive Call where
  | define (name : String) (d : Descriptor)
  | create (options : Options)
  | build (builder : Nat) (root : Path) (d : Descriptor)

/-- The workshop after a call. A layout that fails changes nothing. -/
def after (w : Workshop) : Call → Workshop
  | .define name d => { w with registry := w.registry.insert name d }
  | .create options =>
    { w with builders := w.builders ++ [Builder.create options (some w.registry)] }
  | .build n root d =>
    match w.builders[n]? with
    | none => w
    | some b =>
      match b.build w.registry root d with
      | .error _ => w
      | .ok (_, b') => { w with builders := w.builders.set n b' }

/-- What has become of a registry and its builders after some calls. -/
def run (registry : Registry) (calls : List Call) : Workshop := calls.foldl after { registry }

/-- A call changes nothing but the report of a builder. -/
theorem builder_after (found : w.builders[n]? = some b) (call : Call) :
    ∃ report, (w.after call).builders[n]? = some { b with report } := by
  cases call with
  | define name d => exact ⟨b.report, found⟩
  | create options =>
    refine ⟨b.report, ?_⟩
    have bound : n < w.builders.length := (List.getElem?_eq_some_iff.mp found).1
    change (w.builders ++ _)[n]? = _
    rw [List.getElem?_append_left bound, found]
  | build m root d =>
    unfold after
    dsimp only
    split
    · exact ⟨b.report, found⟩
    · next other stored =>
      split
      · exact ⟨b.report, found⟩
      · next layout built made =>
        -- Only the builder that was asked is replaced, by itself with a new report.
        by_cases same : m = n
        · subst same
          rw [found] at stored
          cases stored
          obtain ⟨-, rfl⟩ := Builder.build_eq_ok_iff.mp made
          have bound : m < w.builders.length := (List.getElem?_eq_some_iff.mp found).1
          exact ⟨layout.truncations, List.getElem?_set_self bound⟩
        · exact ⟨b.report, by rw [List.getElem?_set_ne same, found]⟩

/-- So do any number of calls. -/
theorem builder_foldl_after (found : w.builders[n]? = some b) (calls : List Call) :
    ∃ report, (calls.foldl after w).builders[n]? = some { b with report } := by
  induction calls generalizing w b with
  | nil => exact ⟨b.report, found⟩
  | cons call rest ih =>
    obtain ⟨report, next⟩ := builder_after found call
    obtain ⟨last, later⟩ := ih next
    exact ⟨last, later⟩

/-- Whatever is called afterwards, a builder that is made in the course of some calls goes on looking
at the registry if it had a definition at the time, and at no definitions otherwise. -/
theorem exists_builder_of_create (registry : Registry) (before later : List Call)
    (options : Options) {made now : Workshop} (first : run registry before = made)
    (last : run registry (before ++ .create options :: later) = now) :
    ∃ b, now.builders[made.builders.length]? = some b ∧
      ∀ root d, (b.build now.registry root d).map Prod.fst =
        d.layout options (if made.registry.isEmpty then .empty else now.registry) root := by
  have new : (made.after (.create options)).builders[made.builders.length]? =
      some (Builder.create options (some made.registry)) := List.getElem?_concat_length
  obtain ⟨report, found⟩ := builder_foldl_after new later
  have reached : later.foldl after (made.after (.create options)) = now := by
    rw [← last, ← first, run, run, List.foldl_append, List.foldl_cons]
  rw [reached] at found
  refine ⟨_, found, fun root d => ?_⟩
  rw [Builder.map_fst_build, ← Builder.registry_create_some options]
  rfl

/-- A builder sees its registry exactly if the registry had a definition when the builder was made, or
still has none: then it lays out every descriptor, or fails, like a builder that is made on the spot.
If there was no definition, the builder works as if there never were one; so it does not resolve any
name that was defined since, while one made on the spot never fails for want of such a name. -/
theorem builder_sees_registry_unless_made_with_empty (registry : Registry)
    (before later : List Call) (options : Options) {made now : Workshop}
    (first : run registry before = made)
    (last : run registry (before ++ .create options :: later) = now) :
    ∃ b, now.builders[made.builders.length]? = some b ∧
      ((∀ d, (b.build now.registry .root d).map Prod.fst = d.tree options (some now.registry)) ↔
        made.registry.isEmpty = false ∨ now.registry.isEmpty = true) ∧
      (made.registry.isEmpty = true →
        (∀ d, (b.build now.registry .root d).map Prod.fst = d.tree options (some .empty)) ∧
        ∀ name d, now.registry.get? name = some d →
          (b.build now.registry .root (.ref name)).map Prod.fst =
            .error ⟨.fault (.unresolved name), []⟩ ∧
          ∀ truncations, (Descriptor.ref name).tree options (some now.registry) ≠
            .error ⟨.fault (.unresolved name), truncations⟩) := by
  obtain ⟨b, found, lays⟩ := exists_builder_of_create registry before later options first last
  refine ⟨b, found, ?_, ?_⟩
  · simp only [lays, Descriptor.tree_eq]
    cases made.registry.isEmpty with
    | false => simp
    | true =>
      -- The builder has gone on with no definitions, which shows as soon as there is one.
      simpa using Descriptor.layout_empty_eq_iff
  · intro none
    simp only [lays, Descriptor.tree_eq, none, if_true]
    refine ⟨fun d => trivial, fun name d defined => ⟨?_, ?_⟩⟩
    · exact Descriptor.layout_ref_empty options .root name
    · intro truncations failed
      rw [Descriptor.get?_of_layout_unresolved failed] at defined
      cases defined

/-- Something, and the address of something of the same kind. -/
def pairOf (own : Tag) : Descriptor :=
  .struct [(0, .scalar own none), (8, .pointer (.scalar own none))] (some "pair") none

/-- One builder is made before the first definition of a name and one after it. Then the definition is
replaced. -/
def earlyAndLate : List Call := [
  .create default,
  .define "pair" (pairOf (.float .double)),
  .create default,
  .build 1 .root (.ref "pair"),
  .define "pair" (pairOf .integer)]

/-- The late builder lays out the new definition, and the early one does not know the name. -/
theorem builder_sees_registry_unless_made_with_empty_late :
    (run .empty []).registry.isEmpty = true ∧
    (run .empty (earlyAndLate.take 2)).registry.isEmpty = false ∧
    (∃ early, (run .empty earlyAndLate).builders[0]? = some early ∧
      (early.build (run .empty earlyAndLate).registry .root (.ref "pair")).map Prod.fst =
        .error ⟨.fault (.unresolved "pair"), []⟩) ∧
    ∃ late l, (run .empty earlyAndLate).builders[1]? = some late ∧
      (late.build (run .empty earlyAndLate).registry .root (.ref "pair")).map Prod.fst = .ok l ∧
      l.tree.entries = [(⟨.byte 0, []⟩, .integer), (⟨.byte 8, []⟩, .pointer),
        (⟨.byte 8, [.byte 0]⟩, .integer)] := by
  have defined : (run .empty (earlyAndLate.take 2)).registry.isEmpty = false := rfl
  have laid : ((Descriptor.ref "pair").tree default
      (some (run .empty earlyAndLate).registry)).toOption.map (·.tree.entries) =
        some [(⟨.byte 0, []⟩, .integer), (⟨.byte 8, []⟩, .pointer),
          (⟨.byte 8, [.byte 0]⟩, .integer)] := by
    decide +kernel
  have cutEarly : run .empty ([] ++ .create default :: earlyAndLate.drop 1) =
      run .empty earlyAndLate := rfl
  have cutLate : run .empty (earlyAndLate.take 2 ++ .create default :: earlyAndLate.drop 3) =
      run .empty earlyAndLate := rfl
  obtain ⟨early, foundEarly, -, misses⟩ :=
    builder_sees_registry_unless_made_with_empty .empty [] _ default rfl cutEarly
  obtain ⟨late, foundLate, sees, -⟩ :=
    builder_sees_registry_unless_made_with_empty .empty (earlyAndLate.take 2) _ default rfl cutLate
  obtain ⟨l, ok, entries⟩ := Option.map_eq_some_iff.mp laid
  refine ⟨rfl, defined, ⟨early, foundEarly, ((misses rfl).2 "pair" (pairOf .integer) rfl).1⟩,
    late, l, foundLate, ?_, entries⟩
  rw [sees.mpr (Or.inl defined)]
  exact eq_ok_of_toOption ok

/-- A builder that is made with an empty registry fails at the first name that is defined there, while
one made on the spot lays it out. -/
theorem builder_misses_first_definition :
    ∃ b l, (run .empty (earlyAndLate.take 2)).builders[0]? = some b ∧
      b.build (run .empty (earlyAndLate.take 2)).registry .root (.ref "pair") =
        .error ⟨.fault (.unresolved "pair"), []⟩ ∧
      (Descriptor.ref "pair").tree default
        (some (run .empty (earlyAndLate.take 2)).registry) = .ok l ∧
      l.tree.entries = [(⟨.byte 0, []⟩, .float .double), (⟨.byte 8, []⟩, .pointer),
        (⟨.byte 8, [.byte 0]⟩, .float .double)] := by
  have laid : ((Descriptor.ref "pair").tree default
      (some (run .empty (earlyAndLate.take 2)).registry)).toOption.map (·.tree.entries) =
        some [(⟨.byte 0, []⟩, .float .double), (⟨.byte 8, []⟩, .pointer),
          (⟨.byte 8, [.byte 0]⟩, .float .double)] := by
    decide +kernel
  obtain ⟨l, ok, entries⟩ := Option.map_eq_some_iff.mp laid
  exact ⟨_, l, rfl, rfl, eq_ok_of_toOption ok, entries⟩

end Workshop

end ByteLayout
