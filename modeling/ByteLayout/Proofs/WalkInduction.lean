import ByteLayout.Descriptor.Layout
import ByteLayout.OrderedMap.Lemmas
import Mathlib.Data.List.Perm.Subperm

/-! # Induction over walks

A walk over a descriptor follows its fields, elements and names down to its addresses. Names may
refer to each other in any way, but a walk opens no name inside itself, so it opens at most as many
as the registry has. What holds of each step, given that it holds of the walks inside, therefore
holds of the whole walk. -/

namespace ByteLayout.Descriptor

/-- One walk after another. -/
def Walk.andThen (walk after : Walk) : Walk := fun trail =>
  match walk trail with
  | .error failure => .error failure
  | .ok between => after between

/-! ## Names that are open -/

/-- The names of a registry that can be open at the same time. -/
structure Opened (registry : Registry) (opened : List String) : Prop where
  nodup : opened.Nodup
  known : ∀ name ∈ opened, (registry.get? name).isSome = true

section Names

variable {registry : Registry} {d : Descriptor} {opened : List String} {name : String}

theorem Opened.nil (registry : Registry) : Opened registry [] := ⟨List.nodup_nil, by simp⟩

theorem Opened.push (names : Opened registry opened) (new : name ∉ opened)
    (found : registry.get? name = some d) : Opened registry (opened ++ [name]) := by
  constructor
  · rw [List.nodup_append]
    refine ⟨names.nodup, by simp, fun a member b last => ?_⟩
    rw [List.mem_singleton.mp last]
    exact fun same => new (same ▸ member)
  · intro other member
    rcases List.mem_append.mp member with old | last
    · exact names.known other old
    · rw [List.mem_singleton.mp last, found]
      rfl

theorem Opened.length_le (names : Opened registry opened) : opened.length ≤ registry.size := by
  have among : opened ⊆ registry.keys := fun name member =>
    OrderedMap.mem_keys_iff.mpr (names.known name member)
  have length := (names.nodup.subperm among).length_le
  rwa [OrderedMap.keys, List.length_map] at length

end Names

/-! ## Steps of a walk -/

/-- What is said by `P` of walks over descriptors inside the layouts of some names, and by `Q` of
walks over fields, holds of each step if it holds of the walks inside. -/
structure WalkSteps (registry : Registry) (onPointer : Path → Descriptor → Walk)
    (P : List String → Path → Descriptor → Walk → Prop)
    (Q : List String → Path → List (Nat × Descriptor) → Walk → Prop) : Prop where
  scalar : ∀ opened p tag size, P opened p (.scalar tag size) fun trail => .ok (trail.add p tag)
  struct : ∀ opened p fields name size walk, Q opened p fields walk →
    P opened p (.struct fields name size) walk
  nil : ∀ opened p, Q opened p [] .ok
  cons : ∀ opened p offset field rest walk after, P opened (p.shiftLast offset) field walk →
    Q opened p rest after → Q opened p ((offset, field) :: rest) (walk.andThen after)
  element : ∀ opened p element stride count walk, 0 < count →
    P opened (p.shiftLast 0) element walk → P opened p (.array element stride count) walk
  hollow : ∀ opened p element stride, P opened p (.array element stride 0) .ok
  pointer : ∀ opened p pointee, P opened p (.pointer pointee) (onPointer p pointee)
  again : ∀ opened p name, name ∈ opened →
    P opened p (.ref name) (halt (.fault (.containsItself name opened)))
  missing : ∀ opened p name, name ∉ opened → registry.get? name = none →
    P opened p (.ref name) (halt (.fault (.unresolved name)))
  named : ∀ opened p name d walk, name ∉ opened → registry.get? name = some d →
    P (opened ++ [name]) p d walk → P opened p (.ref name) walk
  foreign : ∀ opened p datum, P opened p (.foreign datum) (halt (.fault (.unknown datum)))

namespace WalkSteps

variable {registry : Registry} {onPointer : Path → Descriptor → Walk}
  {onName : String → Path → Walk} {P : List String → Path → Descriptor → Walk → Prop}
  {Q : List String → Path → List (Nat × Descriptor) → Walk → Prop} {opened : List String}

mutual

theorem walkWith (steps : WalkSteps registry onPointer P Q)
    (names : ∀ name p, P opened p (.ref name) (onName name p)) :
    ∀ (d : Descriptor) (p : Path), P opened p d (walkWith onPointer onName p d)
  | .scalar tag size, p => steps.scalar opened p tag size
  | .struct fields name size, p =>
    steps.struct opened p fields name size _ (walkFields steps names fields p)
  | .array element stride 0, p => steps.hollow opened p element stride
  | .array element stride (count + 1), p =>
    steps.element opened p element stride (count + 1) _ (Nat.succ_pos count)
      (walkWith steps names element (p.shiftLast 0))
  | .pointer pointee, p => steps.pointer opened p pointee
  | .ref name, p => names name p
  | .foreign datum, p => steps.foreign opened p datum

theorem walkFields (steps : WalkSteps registry onPointer P Q)
    (names : ∀ name p, P opened p (.ref name) (onName name p)) :
    ∀ (fields : List (Nat × Descriptor)) (p : Path),
      Q opened p fields (walkFields onPointer onName p fields)
  | [], p => steps.nil opened p
  | (offset, field) :: rest, p =>
    steps.cons opened p offset field rest _ _ (walkWith steps names field (p.shiftLast offset))
      (walkFields steps names rest p)

end

theorem walkName (steps : WalkSteps registry onPointer P Q)
    {go : List String → Path → Descriptor → Walk} {name : String} {p : Path}
    (inside : ∀ d, registry.get? name = some d → name ∉ opened →
      P (opened ++ [name]) p d (go (opened ++ [name]) p d)) :
    P opened p (.ref name) (walkName registry go opened name p) := by
  unfold Descriptor.walkName
  split
  · next member => exact steps.again opened p name member
  · next new =>
    split
    · next missing => exact steps.missing opened p name new missing
    · next d found => exact steps.named opened p name d _ new found (inside d found new)

/-- The registry has too few names for the walk to run out of them. -/
theorem walkAmong (steps : WalkSteps registry onPointer P Q) {names : Nat}
    (distinct : Opened registry opened) (enough : registry.size ≤ names + opened.length)
    (d : Descriptor) (p : Path) :
    P opened p d (walkAmong onPointer registry names opened p d) := by
  induction names generalizing opened d p with
  | zero =>
    -- All names of the registry are open by now, so another one would be one too many.
    refine steps.walkWith (fun name p => steps.walkName fun d found new => ?_) d p
    have length := (distinct.push new found).length_le
    simp only [List.length_append, List.length_singleton] at length
    omega
  | succ names ih =>
    refine steps.walkWith (fun name p => steps.walkName fun d found new => ?_) d p
    refine ih (distinct.push new found) ?_ d p
    simp only [List.length_append, List.length_singleton]
    omega

end WalkSteps

end ByteLayout.Descriptor
