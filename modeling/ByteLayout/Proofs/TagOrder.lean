import ByteLayout.Tag

/-! # The order of tags

A policy orders the tags: the unknown tag lies below all others, the contradictory one above all
others, and under the unified policy an integer lies below a pointer. Joins are least upper bounds
of this order. -/

namespace ByteLayout.Tag

/-- `a` says no more than `b`. -/
def Below (policy : Policy) (a b : Tag) : Prop :=
  a = .bottom ∨ b = .anything ∨ a = b ∨ (policy = .unified ∧ a = .integer ∧ b = .pointer)

instance (policy : Policy) (a b : Tag) : Decidable (Below policy a b) :=
  inferInstanceAs (Decidable (_ ∨ _ ∨ _ ∨ (_ ∧ _ ∧ _)))

variable {policy : Policy} {a b c : Tag}

@[simp] theorem bottom_below (policy : Policy) (b : Tag) : Below policy .bottom b := Or.inl rfl

@[simp] theorem below_anything (policy : Policy) (a : Tag) : Below policy a .anything :=
  Or.inr (Or.inl rfl)

theorem below_refl (policy : Policy) (a : Tag) : Below policy a a := Or.inr (Or.inr (Or.inl rfl))

theorem below_trans (ab : Below policy a b) (bc : Below policy b c) : Below policy a c := by
  unfold Below at *
  rcases ab with rfl | rfl | rfl | ⟨unified, rfl, rfl⟩
  · exact Or.inl rfl
  · rcases bc with unknown | top | same | ⟨-, integer, -⟩
    · cases unknown
    · exact Or.inr (Or.inl top)
    · exact Or.inr (Or.inl same.symm)
    · cases integer
  · exact bc
  · rcases bc with unknown | top | same | ⟨-, integer, -⟩
    · cases unknown
    · exact Or.inr (Or.inl top)
    · exact Or.inr (Or.inr (Or.inr ⟨unified, rfl, same.symm⟩))
    · cases integer

theorem below_antisymm (ab : Below policy a b) (ba : Below policy b a) : a = b := by
  unfold Below at *
  rcases ab with rfl | rfl | rfl | ⟨-, rfl, rfl⟩ <;> simp_all [eq_comm]

@[simp] theorem below_bottom_iff : Below policy a .bottom ↔ a = .bottom := by
  simp [Below]

theorem Below.ne_bottom (below : Below policy a b) (known : a ≠ .bottom) : b ≠ .bottom := by
  intro unknown
  rw [unknown, below_bottom_iff] at below
  exact known below

@[simp] theorem anything_below_iff : Below policy .anything b ↔ b = .anything := by
  simp [Below, eq_comm]

theorem pointer_below_iff : Below policy .pointer b ↔ b = .pointer ∨ b = .anything := by
  simp [Below, eq_comm, or_comm]

/-- What holds when integers carry no addresses holds under every policy. -/
theorem Below.of_distinct (below : Below .distinct a b) : Below policy a b := by
  rcases below with known | known | known | ⟨unified, -, -⟩
  · exact Or.inl known
  · exact Or.inr (Or.inl known)
  · exact Or.inr (Or.inr (Or.inl known))
  · cases unified

theorem isAddressClash_iff :
    isAddressClash a b = true ↔ (a = .integer ∧ b = .pointer) ∨ (a = .pointer ∧ b = .integer) := by
  cases a <;> cases b <;> simp [isAddressClash]

theorem below_join_left (policy : Policy) (a b : Tag) : Below policy a (a.join policy b) := by
  unfold join
  split
  · next unknown => exact Or.inl unknown
  · split
    · exact below_refl policy a
    · split
      · exact below_refl policy a
      · split
        · next clash =>
          simp only [Bool.and_eq_true, decide_eq_true_eq, isAddressClash_iff] at clash
          rcases clash with ⟨unified, ⟨rfl, -⟩ | ⟨rfl, -⟩⟩
          · exact Or.inr (Or.inr (Or.inr ⟨unified, rfl, rfl⟩))
          · exact below_refl policy _
        · exact below_anything policy a

theorem join_comm (policy : Policy) (a b : Tag) : a.join policy b = b.join policy a := by
  have clash : isAddressClash a b = isAddressClash b a := by
    rw [Bool.eq_iff_iff, isAddressClash_iff, isAddressClash_iff]
    exact Or.comm.trans (or_congr And.comm And.comm)
  by_cases same : a = b
  · rw [same]
  · have other : ¬ b = a := fun h => same h.symm
    unfold join
    by_cases unknownA : a = .bottom <;> by_cases unknownB : b = .bottom <;>
      simp [unknownA, unknownB, same, other, clash]

theorem below_join_right (policy : Policy) (a b : Tag) : Below policy b (a.join policy b) := by
  rw [join_comm]
  exact below_join_left policy b a

theorem join_below (ac : Below policy a c) (bc : Below policy b c) :
    Below policy (a.join policy b) c := by
  unfold join
  split
  · exact bc
  · split
    · exact ac
    · split
      · exact ac
      · next knownA knownB different =>
        -- Two different known tags have an upper bound other than a contradiction only if the
        -- policy reconciles them.
        unfold Below at ac bc
        rcases ac with unknown | rfl | rfl | ⟨unified, rfl, rfl⟩
        · exact absurd unknown knownA
        · exact below_anything policy _
        · rcases bc with unknown | rfl | rfl | ⟨unified, rfl, rfl⟩
          · exact absurd unknown knownB
          · exact below_anything policy _
          · exact absurd rfl different
          · simp [unified, isAddressClash, below_refl]
        · rcases bc with unknown | bad | rfl | ⟨-, rfl, -⟩
          · exact absurd unknown knownB
          · cases bad
          · simp [unified, isAddressClash, below_refl]
          · exact absurd rfl different

/-- Joins are least upper bounds. -/
theorem join_below_iff : Below policy (a.join policy b) c ↔ Below policy a c ∧ Below policy b c := by
  constructor
  · intro below
    exact ⟨below_trans (below_join_left policy a b) below,
      below_trans (below_join_right policy a b) below⟩
  · rintro ⟨ac, bc⟩
    exact join_below ac bc

theorem join_eq_right_iff : a.join policy b = b ↔ Below policy a b := by
  constructor
  · intro same
    rw [← same]
    exact below_join_left policy a b
  · intro below
    exact below_antisymm (join_below below (below_refl policy b)) (below_join_right policy a b)

end ByteLayout.Tag
