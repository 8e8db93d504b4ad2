import ByteLayout.Lattice
import ByteLayout.Proofs.TagOrder
import ByteLayout.Tree.Lemmas

/-! # The order of trees

A tree covers a tag at a path when it stores at least that much there, or when an opaque entry stands
on the way. A tree lies below another one that covers all its entries. Well-formed trees are
partially ordered by this, and bringing a map into form yields the least well-formed tree above it.
Hence joins are least upper bounds, and the computed order is this one. -/

namespace ByteLayout.Tree

variable {policy : Policy} {a b c t : Tree} {p q : Path} {tag : Tag}

/-- An opaque entry stands on the way to a path. -/
def Hides (t : Tree) (p : Path) : Prop := ∃ q, q.isAncestorOf p = true ∧ t.get? q = some .anything

/-- A tree says at least `tag` about a path. -/
def Covers (policy : Policy) (t : Tree) (p : Path) (tag : Tag) : Prop :=
  t.Hides p ∨ tag.Below policy (t.tag p)

/-- Everything that `a` says is covered by `b`. -/
def Below (policy : Policy) (a b : Tree) : Prop := ∀ p, b.Covers policy p (a.tag p)

/-! ## Tags and readings -/

theorem tag_of_get? (found : t.get? p = some tag) : t.tag p = tag := by
  simp [Tree.tag, found]

theorem tag_eq_anything_iff : t.tag p = .anything ↔ t.get? p = some .anything := by
  unfold Tree.tag
  cases t.get? p <;> simp

theorem get?_of_tag_ne_bottom (known : t.tag p ≠ .bottom) : t.get? p = some (t.tag p) := by
  unfold Tree.tag at *
  cases found : t.get? p with
  | none => simp [found] at known
  | some tag => simp

theorem WellFormed.ne_bottom (wf : t.WellFormed) (found : t.get? p = some tag) : tag ≠ .bottom := by
  intro unknown
  exact wf.known p (unknown ▸ found)

/-- A well-formed tree is determined by its tags. -/
theorem WellFormed.get?_eq (wf : t.WellFormed) (p : Path) :
    t.get? p = if t.tag p = .bottom then none else some (t.tag p) := by
  split
  · next unknown =>
    cases found : t.get? p with
    | none => rfl
    | some tag =>
      rw [tag_of_get? found] at unknown
      exact absurd (unknown ▸ found) (wf.known p)
  · next known => exact get?_of_tag_ne_bottom known

theorem WellFormed.get?_eq_some_iff (wf : t.WellFormed) :
    t.get? p = some tag ↔ t.tag p = tag ∧ tag ≠ .bottom := by
  rw [wf.get?_eq]
  split
  · next unknown => simp [unknown, eq_comm]
  · next known =>
    rw [Option.some.injEq]
    exact (and_iff_left_of_imp fun same => same ▸ known).symm

theorem beq_of_tag_eq (wfA : a.WellFormed) (wfB : b.WellFormed) (same : ∀ p, a.tag p = b.tag p) :
    (a == b) = true := by
  rw [beq_iff]
  intro p
  rw [wfA.get?_eq, wfB.get?_eq, same p]

theorem tag_eq_of_beq (same : (a == b) = true) (p : Path) : a.tag p = b.tag p := by
  unfold Tree.tag
  rw [beq_iff.mp same p]

theorem beq_symm (same : (a == b) = true) : (b == a) = true :=
  beq_iff.mpr fun p => (beq_iff.mp same p).symm

theorem wellFormed_of_beq (same : (a == b) = true) (wf : a.WellFormed) : b.WellFormed := by
  rw [beq_iff] at same
  constructor
  · intro p
    rw [← same p]
    exact wf.known p
  · intro p q tag above
    rw [← same p, ← same q]
    exact wf.pointers p q tag above

/-- Nothing is stored behind an opaque entry. -/
theorem WellFormed.tag_of_hides (wf : t.WellFormed) (hidden : t.Hides p) : t.tag p = .bottom := by
  obtain ⟨q, above, found⟩ := hidden
  by_cases known : t.tag p = .bottom
  · exact known
  · have stored : (t.get? p).isSome := by
      rw [get?_of_tag_ne_bottom known]; rfl
    have pointer := wf.pointers q p .anything above found stored
    cases pointer

/-- What stands on the way to a stored path is unknown or a pointer. -/
theorem WellFormed.tag_on_way (wf : t.WellFormed) (above : p.isAncestorOf q = true)
    (known : t.tag q ≠ .bottom) : t.tag p = .bottom ∨ t.tag p = .pointer := by
  by_cases unknown : t.tag p = .bottom
  · exact Or.inl unknown
  · have stored : (t.get? q).isSome := by
      rw [get?_of_tag_ne_bottom known]; rfl
    exact Or.inr (wf.pointers p q _ above (get?_of_tag_ne_bottom unknown) stored)

/-! ## Covering -/

theorem Hides.of_isAncestorOf (hidden : t.Hides p) (above : p.isAncestorOf q = true) :
    t.Hides q := by
  obtain ⟨r, below, found⟩ := hidden
  exact ⟨r, Path.isAncestorOf_trans below above, found⟩

theorem covers_bottom (policy : Policy) (t : Tree) (p : Path) : t.Covers policy p .bottom :=
  Or.inr (Tag.bottom_below policy _)

theorem Covers.of_below {small large : Tag} (covered : t.Covers policy p large)
    (below : small.Below policy large) : t.Covers policy p small := by
  rcases covered with hidden | stored
  · exact Or.inl hidden
  · exact Or.inr (Tag.below_trans below stored)

/-- What is covered when integers carry no addresses is covered under every policy. -/
theorem Covers.of_distinct (covered : t.Covers .distinct p tag) : t.Covers policy p tag := by
  rcases covered with hidden | stored
  · exact Or.inl hidden
  · exact Or.inr stored.of_distinct

theorem covers_join_iff {x y : Tag} :
    t.Covers policy p (x.join policy y) ↔ t.Covers policy p x ∧ t.Covers policy p y := by
  unfold Covers
  rw [Tag.join_below_iff, or_and_left]

/-- A covered contradiction makes everything behind it opaque. -/
theorem Covers.hides (covered : t.Covers policy p .anything) (above : p.isAncestorOf q = true) :
    t.Hides q := by
  rcases covered with hidden | stored
  · exact hidden.of_isAncestorOf above
  · exact ⟨p, above, tag_eq_anything_iff.mp (Tag.anything_below_iff.mp stored)⟩

theorem Below.hides (below : a.Below policy b) (hidden : a.Hides p) : b.Hides p := by
  obtain ⟨q, above, found⟩ := hidden
  have covered := below q
  rw [tag_of_get? found] at covered
  exact covered.hides above

theorem Below.covers (below : a.Below policy b) (covered : a.Covers policy p tag) :
    b.Covers policy p tag := by
  rcases covered with hidden | stored
  · exact Or.inl (below.hides hidden)
  · exact (below p).of_below stored

theorem below_refl (policy : Policy) (t : Tree) : t.Below policy t :=
  fun p => Or.inr (Tag.below_refl policy (t.tag p))

theorem Below.trans (ab : a.Below policy b) (bc : b.Below policy c) : a.Below policy c :=
  fun p => bc.covers (ab p)

theorem Below.of_distinct (below : a.Below .distinct b) : a.Below policy b :=
  fun p => (below p).of_distinct

theorem below_of_beq (policy : Policy) (same : (a == b) = true) : a.Below policy b := by
  intro p
  rw [tag_eq_of_beq same p]
  exact below_refl policy b p

theorem empty_below (policy : Policy) (t : Tree) : empty.Below policy t :=
  fun p => covers_bottom policy t p

/-- Two trees that cover each other agree wherever the first one stores anything. -/
theorem WellFormed.tag_below (wf : a.WellFormed) (ab : a.Below policy b) (ba : b.Below policy a)
    (p : Path) : (a.tag p).Below policy (b.tag p) := by
  rcases ab p with hidden | stored
  · rw [wf.tag_of_hides (ba.hides hidden)]
    exact Tag.bottom_below policy _
  · exact stored

theorem Below.antisymm (wfA : a.WellFormed) (wfB : b.WellFormed) (ab : a.Below policy b)
    (ba : b.Below policy a) : (a == b) = true :=
  beq_of_tag_eq wfA wfB fun p =>
    Tag.below_antisymm (wfA.tag_below ab ba p) (wfB.tag_below ba ab p)

end ByteLayout.Tree
