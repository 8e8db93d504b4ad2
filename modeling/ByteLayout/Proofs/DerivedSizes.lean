import ByteLayout.Descriptor.Builder
import ByteLayout.Descriptor.Size
import ByteLayout.Proofs.WalkInduction

/-! # Sizes of what can be laid out

The size of a descriptor is derived from the sizes of its parts. It does not look behind addresses,
into arrays or into structs whose size is given, and it stops at the first part without a size; a
layout looks at more, but not at empty arrays and not at what lies too deep. Still, whatever a builder
lays out has a derivation of its size that comes to an end. -/

namespace ByteLayout

namespace Descriptor

/-! ## Derivations -/

mutual

/-- A descriptor has a size, or is known to have none, by a finite derivation. Names are replaced by
their layouts as often as it takes. -/
inductive HasSize (names : Option Registry) : Descriptor → Option Int → Prop where
  | given {tag : Tag} {n : Nat} : HasSize names (.scalar tag (some n)) (some n)
  | kind {tag : Tag} : HasSize names (.scalar tag none) (kindSize? tag)
  | stated {fields : List (Nat × Descriptor)} {name : Option String} {n : Int} :
      HasSize names (.struct fields name (some n)) (some n)
  | fields {fields : List (Nat × Descriptor)} {name : Option String} {size : Option Int}
      (ends : EndsAt names 0 fields size) : HasSize names (.struct fields name none) size
  | array {element : Descriptor} {stride count : Nat} :
      HasSize names (.array element stride count) (some (stride * count))
  | pointer {pointee : Descriptor} : HasSize names (.pointer pointee) (some pointerSize)
  | nameless {name : String} (without : names = none) : HasSize names (.ref name) none
  | named {registry : Registry} {name : String} {d : Descriptor} {size : Option Int}
      (given : names = some registry) (found : registry.get? name = some d)
      (inside : HasSize names d size) : HasSize names (.ref name) size

/-- Fields end at a byte, `reached` or a later one, unless one of them has no size. -/
inductive EndsAt (names : Option Registry) : Int → List (Nat × Descriptor) → Option Int → Prop where
  | nil {reached : Int} : EndsAt names reached [] (some reached)
  | unknown {reached : Int} {offset : Nat} {field : Descriptor} {rest : List (Nat × Descriptor)}
      (first : HasSize names field none) : EndsAt names reached ((offset, field) :: rest) none
  | cons {reached n : Int} {offset : Nat} {field : Descriptor} {rest : List (Nat × Descriptor)}
      {size : Option Int} (first : HasSize names field (some n))
      (later : EndsAt names (max reached (offset + n)) rest size) :
      EndsAt names reached ((offset, field) :: rest) size

end

variable {names : Option Registry} {opened : List String}

/-- What becomes of a name while the sizes of `opened` are being derived, when at most `left` more
names can be opened. -/
def sizeOfNameAmong (names : Option Registry) (left : Nat) (opened : List String) (name : String) :
    Except Fault (Option Int) :=
  match names, left with
  | none, _ => .ok none
  | some registry, 0 => sizeOfName registry (fun _ _ => .ok none) opened name
  | some registry, left + 1 => sizeOfName registry (sizeAmong registry left) opened name

theorem sizeOfName_eq_ok {registry : Registry}
    {go : List String → Descriptor → Except Fault (Option Int)} {name : String} {size : Option Int}
    (ok : sizeOfName registry go opened name = .ok size) :
    ∃ d, registry.get? name = some d ∧ name ∉ opened ∧ go (opened ++ [name]) d = .ok size := by
  unfold sizeOfName at ok
  split at ok
  · cases ok
  · next d found =>
    split at ok
    · cases ok
    · next new => exact ⟨d, found, new, ok⟩

theorem sizeAmong_eq (registry : Registry) (left : Nat) (opened : List String) (d : Descriptor) :
    sizeAmong registry left opened d = sizeWith (sizeOfNameAmong (some registry) left opened) d := by
  cases left <;> rfl

theorem byteSize_eq (names : Option Registry) (d : Descriptor) :
    byteSize names d = sizeWith (sizeOfNameAmong names (names.getD .empty).size []) d := by
  cases names with
  | none => rfl
  | some registry => exact sizeAmong_eq registry registry.size [] d

mutual

/-- A size that is computed has a derivation if the sizes of names have. -/
theorem hasSize_of_sizeWith {ofName : String → Except Fault (Option Int)}
    (derived : ∀ name size, ofName name = .ok size → HasSize names (.ref name) size) :
    ∀ (d : Descriptor) (size : Option Int), sizeWith ofName d = .ok size → HasSize names d size
  | .scalar tag (some n), size, ok => by
    cases ok
    exact .given
  | .scalar tag none, size, ok => by
    cases ok
    exact .kind
  | .struct fields name (some n), size, ok => by
    cases ok
    exact .stated
  | .struct fields name none, size, ok => .fields (endsAt_of_endWith derived fields 0 size ok)
  | .array element stride count, size, ok => by
    cases ok
    exact .array
  | .pointer pointee, size, ok => by
    cases ok
    exact .pointer
  | .ref name, size, ok => derived name size ok
  | .foreign datum, size, ok => by cases ok

theorem endsAt_of_endWith {ofName : String → Except Fault (Option Int)}
    (derived : ∀ name size, ofName name = .ok size → HasSize names (.ref name) size) :
    ∀ (fields : List (Nat × Descriptor)) (reached : Int) (size : Option Int),
      endWith ofName reached fields = .ok size → EndsAt names reached fields size
  | [], reached, size, ok => by
    cases ok
    exact .nil
  | (offset, field) :: rest, reached, size, ok => by
    rw [endWith] at ok
    split at ok
    · cases ok
    · next first =>
      cases ok
      exact .unknown (hasSize_of_sizeWith derived field none first)
    · next n first =>
      exact .cons (hasSize_of_sizeWith derived field (some n) first)
        (endsAt_of_endWith derived rest _ size ok)

end

/-- The registry has too few names for the computation to run out of them. -/
theorem hasSize_of_sizeOfNameAmong {left : Nat} (distinct : Opened (names.getD .empty) opened)
    (enough : (names.getD .empty).size ≤ left + opened.length) {name : String} {size : Option Int}
    (ok : sizeOfNameAmong names left opened name = .ok size) : HasSize names (.ref name) size := by
  cases names with
  | none =>
    cases ok
    exact .nameless rfl
  | some registry =>
    simp only [Option.getD_some] at distinct enough
    induction left generalizing opened name size with
    | zero =>
      -- All names of the registry are open by now, so another one would be one too many.
      rw [sizeOfNameAmong] at ok
      obtain ⟨d, found, new, -⟩ := sizeOfName_eq_ok ok
      have length := (distinct.push new found).length_le
      simp only [List.length_append, List.length_singleton] at length
      omega
    | succ left ih =>
      rw [sizeOfNameAmong] at ok
      obtain ⟨d, found, new, inside⟩ := sizeOfName_eq_ok ok
      rw [sizeAmong_eq] at inside
      refine .named rfl found (hasSize_of_sizeWith (fun name size deeper => ?_) d size inside)
      refine ih (distinct.push new found) ?_ deeper
      simp only [List.length_append, List.length_singleton]
      omega

/-- A size that is computed has a derivation. -/
theorem hasSize_of_byteSize {d : Descriptor} {size : Option Int} (ok : byteSize names d = .ok size) :
    HasSize names d size := by
  rw [byteSize_eq] at ok
  exact hasSize_of_sizeWith
    (fun name size inside => hasSize_of_sizeOfNameAmong (.nil _) (by simp) inside) d size ok

/-! ## Walks and sizes -/

/-- A walk comes to its end from some point on. -/
def Walk.Succeeds (walk : Walk) : Prop := ∃ trail trail', walk trail = .ok trail'

theorem not_succeeds_halt (stop : Stop) : ¬ Walk.Succeeds (halt stop) := by
  rintro ⟨trail, trail', ok⟩
  cases ok

theorem Walk.Succeeds.of_andThen {walk after : Walk} (succeeds : (walk.andThen after).Succeeds) :
    walk.Succeeds ∧ after.Succeeds := by
  obtain ⟨trail, trail', ok⟩ := succeeds
  unfold Walk.andThen at ok
  cases first : walk trail with
  | error failure =>
    rw [first] at ok
    cases ok
  | ok between =>
    rw [first] at ok
    exact ⟨⟨trail, between, first⟩, ⟨between, trail', ok⟩⟩

/-- Wherever a walk comes to its end, the computation of the size does, whatever it makes of the names
that are beyond it. -/
theorem sized_steps (names : Option Registry) (onPointer : Path → Descriptor → Walk) :
    WalkSteps (names.getD .empty) onPointer
      (fun opened _ d walk => walk.Succeeds → ∀ left, ∃ size,
        sizeWith (sizeOfNameAmong names left opened) d = .ok size)
      (fun opened _ fields walk => walk.Succeeds → ∀ left reached, ∃ size,
        endWith (sizeOfNameAmong names left opened) reached fields = .ok size) where
  scalar _ _ _ size _ _ := by cases size <;> exact ⟨_, rfl⟩
  struct _ _ _ _ size _ inner succeeds left := by
    cases size with
    | some n => exact ⟨some n, rfl⟩
    | none => exact inner succeeds left 0
  nil _ _ _ _ reached := ⟨some reached, rfl⟩
  cons opened _ offset field rest _ _ first later succeeds left reached := by
    obtain ⟨succeeds, succeeds'⟩ := succeeds.of_andThen
    obtain ⟨size, found⟩ := first succeeds left
    cases size with
    | none => exact ⟨none, by rw [endWith, found]⟩
    | some n =>
      obtain ⟨last, ends⟩ := later succeeds' left (max reached (offset + n))
      exact ⟨last, by rw [endWith, found]; exact ends⟩
  element _ _ _ stride count _ _ _ _ _ := ⟨some (stride * count), rfl⟩
  hollow _ _ _ stride _ _ := ⟨some (stride * 0), rfl⟩
  pointer _ _ _ _ _ := ⟨some pointerSize, rfl⟩
  again _ _ _ _ succeeds := absurd succeeds (not_succeeds_halt _)
  missing _ _ _ _ _ succeeds := absurd succeeds (not_succeeds_halt _)
  named opened _ name d _ new found inner succeeds left := by
    cases names with
    | none => exact ⟨none, rfl⟩
    | some registry =>
      rw [Option.getD_some] at found
      cases left with
      | zero => exact ⟨none, by simp [sizeWith, sizeOfNameAmong, sizeOfName, found, new]⟩
      | succ left =>
        obtain ⟨size, ok⟩ := inner succeeds left
        refine ⟨size, ?_⟩
        simpa [sizeWith, sizeOfNameAmong, sizeOfName, found, new, sizeAmong_eq] using ok
  foreign _ _ _ succeeds := absurd succeeds (not_succeeds_halt _)

theorem exists_byteSize_of_walk {options : Options} {depths : Nat} {p : Path} {d : Descriptor}
    (succeeds : (walk options (names.getD .empty) depths p d).Succeeds) :
    ∃ size, byteSize names d = .ok size := by
  rw [byteSize_eq]
  cases depths with
  | zero => exact (sized_steps names _).walkAmong (.nil _) (by simp) d p succeeds _
  | succ depths => exact (sized_steps names _).walkAmong (.nil _) (by simp) d p succeeds _

end Descriptor

namespace Builder

/-- A builder looks at the registry as it is now, if there was a definition when it was made. -/
theorem registry_create_some (options : Options) (made now : Registry) :
    (create options (some made)).registry now = if made.isEmpty then .empty else now := by
  by_cases none : made.isEmpty = true <;> simp [create, Builder.registry, none]

/-- A builder looks at the names that it was made with, as long as they do not change. -/
theorem registry_create (options : Options) (names : Option Registry) :
    (create options names).registry (names.getD .empty) = names.getD .empty := by
  cases names with
  | none => rfl
  | some registry =>
    rw [Option.getD_some, registry_create_some]
    split
    · next none => exact (OrderedMap.isEmpty_iff.mp none).symm
    · rfl

/-- Whatever a builder lays out has a size or is known to have none: the size is computed, and by a
finite derivation. So where the size is not computed, or where no derivation comes to an end, the
builder fails. -/
theorem build_has_derived_size (options : Options) (names : Option Registry) (root : Path)
    (d : Descriptor) :
    (∀ result, (create options names).build (names.getD .empty) root d = .ok result →
      ∃ size, d.byteSize names = .ok size ∧ d.HasSize names size) ∧
    ((∃ fault, d.byteSize names = .error fault) ∨ (∀ size, ¬ d.HasSize names size) →
      ∃ failure, (create options names).build (names.getD .empty) root d = .error failure) := by
  have sized : ∀ result, (create options names).build (names.getD .empty) root d = .ok result →
      ∃ size, d.byteSize names = .ok size ∧ d.HasSize names size := by
    intro result ok
    have succeeds : (Descriptor.walk (create options names).options (names.getD .empty)
        ((create options names).options.maxDepth - root.depth) root d).Succeeds := by
      unfold build Descriptor.layout at ok
      rw [registry_create] at ok
      split at ok
      · cases ok
      · next layout laid =>
        split at laid
        · cases laid
        · next trail walked => exact ⟨_, trail, walked⟩
    obtain ⟨size, computed⟩ := Descriptor.exists_byteSize_of_walk succeeds
    exact ⟨size, computed, Descriptor.hasSize_of_byteSize computed⟩
  refine ⟨sized, fun unsized => ?_⟩
  cases built : (create options names).build (names.getD .empty) root d with
  | error failure => exact ⟨failure, rfl⟩
  | ok result =>
    obtain ⟨size, computed, derived⟩ := sized result built
    rcases unsized with ⟨fault, failed⟩ | endless
    · rw [computed] at failed
      cases failed
    · exact absurd derived (endless size)

/-- Nodes with an address of the next node, and with an array of rings that has no elements; a ring
holds itself. -/
def rings : Registry := .ofList [
  ("node", .struct [(0, .scalar (.float .double) none), (8, .pointer (.ref "node")),
    (16, .array (.ref "ring") 4 0), (16, .pointer (.pointer (.ref "nowhere")))] none none),
  ("ring", .struct [(0, .scalar .pointer none), (8, .ref "ring")] none none)]

/-- Within one dereference, a node is laid out although it refers to itself, to rings and to an unknown
name. A ring has no size, and is not laid out. -/
theorem build_has_derived_size_rings :
    (∃ result, (create { (default : Options) with maxDepth := 1, maxDepth_pos := Nat.le_refl 1 }
        (some rings)).build rings .root (.ref "node") = .ok result) ∧
      (∃ size, (Descriptor.ref "node").byteSize (some rings) = .ok size ∧
        (Descriptor.ref "node").HasSize (some rings) size) ∧
      (∃ fault, (Descriptor.ref "ring").byteSize (some rings) = .error fault) ∧
      ∃ failure, (create { (default : Options) with maxDepth := 1, maxDepth_pos := Nat.le_refl 1 }
        (some rings)).build rings .root (.ref "ring") = .error failure := by
  have built : ∃ result, (create { (default : Options) with
      maxDepth := 1, maxDepth_pos := Nat.le_refl 1 } (some rings)).build rings .root (.ref "node") =
        .ok result := ⟨_, rfl⟩
  have endless : ∃ fault, (Descriptor.ref "ring").byteSize (some rings) = .error fault := ⟨_, rfl⟩
  obtain ⟨result, ok⟩ := built
  exact ⟨⟨result, ok⟩, (build_has_derived_size _ (some rings) .root _).1 result ok, endless,
    (build_has_derived_size _ (some rings) .root _).2 (Or.inl endless)⟩

end Builder

end ByteLayout
