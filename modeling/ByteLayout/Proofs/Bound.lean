import ByteLayout.Proofs.Join
import ByteLayout.Tree.Filter

/-! # Bounding trees

The bound keeps the entries that lie within a depth and an offset. What lies within the bound stays
there when its tag grows, and so does everything on the way to it. Hence bounding goes down in the
order of trees, respects that order, and does nothing a second time. -/

namespace ByteLayout

namespace Path

variable {p q : Path}

theorem foldl_max_le_iff (hops : List Hop) (start n : Int) :
    hops.foldl (fun m hop => max m hop.toInt) start ≤ n ↔
      start ≤ n ∧ ∀ hop ∈ hops, hop.toInt ≤ n := by
  induction hops generalizing start with
  | nil => simp
  | cons hop rest ih =>
    rw [List.foldl_cons, ih, List.forall_mem_cons, Int.max_le, and_assoc]

theorem maxOffset_le_iff {n : Int} : p.maxOffset ≤ n ↔ ∀ hop ∈ p.hops, hop.toInt ≤ n := by
  rw [maxOffset, foldl_max_le_iff, hops, List.forall_mem_cons]

/-- The hops of an ancestor are among those of the path. -/
theorem hops_subset_of_isAncestorOf (above : p.isAncestorOf q = true) : p.hops ⊆ q.hops := by
  obtain ⟨first, rest, -⟩ := isAncestorOf_iff.mp above
  intro hop member
  unfold hops at *
  rcases List.mem_cons.mp member with same | later
  · rw [same, first]
    exact List.mem_cons_self
  · exact List.mem_cons_of_mem _ (rest.subset later)

end Path

namespace Tree

variable {policy : Policy} {a b t : Tree} {p q : Path} {tag : Tag} {depth offset : Nat}

/-- An entry lies within a depth and an offset; a marker may lie just below the depth. -/
def Within (depth offset : Nat) (p : Path) (tag : Tag) : Prop :=
  (p.depth ≤ depth ∨ (p.depth = depth + 1 ∧ p.last = .any ∧ tag = .anything)) ∧
    ∀ hop ∈ p.hops, hop.toInt ≤ offset

instance (depth offset : Nat) (p : Path) (tag : Tag) : Decidable (Within depth offset p tag) :=
  inferInstanceAs (Decidable ((_ ∨ (_ ∧ _ ∧ _)) ∧ _))

theorem Within.of_below {larger : Tag} (within : Within depth offset p tag)
    (below : tag.Below policy larger) : Within depth offset p larger := by
  obtain ⟨shallow | ⟨deep, last, marker⟩, small⟩ := within
  · exact ⟨Or.inl shallow, small⟩
  · rw [marker] at below
    exact ⟨Or.inr ⟨deep, last, Tag.anything_below_iff.mp below⟩, small⟩

/-- Whatever stands on the way to an entry within the bound lies within it, with any tag. -/
theorem Within.of_isAncestorOf (within : Within depth offset p tag)
    (above : q.isAncestorOf p = true) (other : Tag) : Within depth offset q other := by
  have shorter : q.depth < p.depth := (Path.isAncestorOf_iff.mp above).2.2
  refine ⟨Or.inl ?_, fun hop member =>
    within.2 hop (Path.hops_subset_of_isAncestorOf above member)⟩
  rcases within.1 with shallow | ⟨deep, -, -⟩ <;> omega

theorem get?_bounded_eq_some_iff :
    (t.bounded depth offset).get? p = some tag ↔
      t.get? p = some tag ∧ Within depth offset p tag := by
  rw [bounded, atMost, get?_filter_eq_some_iff, get?_truncate_eq_some_iff, decide_eq_true_eq,
    Path.maxOffset_le_iff, and_assoc]
  rfl

theorem tag_bounded (t : Tree) (depth offset : Nat) (p : Path) :
    (t.bounded depth offset).tag p =
      if Within depth offset p (t.tag p) then t.tag p else .bottom := by
  have reading : (t.bounded depth offset).get? p =
      (t.get? p).filter fun tag => decide (Within depth offset p tag) := by
    apply Option.ext
    intro tag
    rw [get?_bounded_eq_some_iff, Option.filter_eq_some_iff, decide_eq_true_eq]
  unfold Tree.tag
  rw [reading]
  cases t.get? p with
  | none => simp
  | some tag => by_cases within : Within depth offset p tag <;> simp [Option.filter, within]

/-- Bounding a tree says no more than the tree. -/
theorem bounded_below (policy : Policy) (t : Tree) (depth offset : Nat) :
    (t.bounded depth offset).Below policy t := by
  intro p
  rw [tag_bounded]
  split
  · exact below_refl policy t p
  · exact covers_bottom policy t p

/-- Bounding respects the order of trees. -/
theorem bounded_mono (depth offset : Nat) (below : a.Below policy b) :
    (a.bounded depth offset).Below policy (b.bounded depth offset) := by
  intro p
  rw [tag_bounded]
  split
  · next within =>
    rcases below p with ⟨q, above, found⟩ | stored
    · left
      refine ⟨q, above, ?_⟩
      exact get?_bounded_eq_some_iff.mpr ⟨found, within.of_isAncestorOf above .anything⟩
    · right
      rw [tag_bounded, if_pos (within.of_below stored)]
      exact stored
  · exact covers_bottom policy _ p

/-- Bounding twice is bounding once. -/
theorem bounded_bounded_beq (t : Tree) (depth offset : Nat) :
    ((t.bounded depth offset).bounded depth offset == t.bounded depth offset) = true := by
  rw [beq_iff]
  intro p
  apply Option.ext
  intro tag
  rw [get?_bounded_eq_some_iff, get?_bounded_eq_some_iff, and_assoc, and_self]

/-- The bound leaves exactly those trees alone that lie within it. -/
theorem bounded_beq_iff :
    (t.bounded depth offset == t) = true ↔
      ∀ p tag, t.get? p = some tag → Within depth offset p tag := by
  rw [beq_iff]
  constructor
  · intro same p tag found
    rw [← same p] at found
    exact (get?_bounded_eq_some_iff.mp found).2
  · intro within p
    apply Option.ext
    intro tag
    rw [get?_bounded_eq_some_iff]
    exact and_iff_left_of_imp (within p tag)

/-- A tree within the bound lies below the bounded part of another one as soon as it lies below all
of it. -/
theorem below_bounded_iff (within : (a.bounded depth offset == a) = true) :
    a.Below policy (b.bounded depth offset) ↔ a.Below policy b := by
  constructor
  · intro below
    exact below.trans (bounded_below policy b depth offset)
  · intro below
    have same : a.Below policy (a.bounded depth offset) := below_of_beq policy (beq_symm within)
    exact same.trans (bounded_mono depth offset below)

/-- Under either policy, bounding is an interior operator in the computed order of the well-formed
trees: it goes down, does nothing a second time, and respects the order. The trees that it leaves
alone are those that lie within the bound, and the bounded part of a tree is the greatest of them
below it. -/
theorem bounded_isInterior (policy : Policy) (depth offset : Nat) {a b : Tree}
    (wfA : a.WellFormed) (wfB : b.WellFormed) :
    (a.bounded depth offset).WellFormed ∧
    (lattice policy).leq (a.bounded depth offset) a = true ∧
    ((a.bounded depth offset).bounded depth offset == a.bounded depth offset) = true ∧
    ((lattice policy).leq a b = true →
      (lattice policy).leq (a.bounded depth offset) (b.bounded depth offset) = true) ∧
    ((a.bounded depth offset == a) = true ↔
      ∀ p tag, a.get? p = some tag → Within depth offset p tag) ∧
    ((a.bounded depth offset == a) = true →
      (lattice policy).leq a (b.bounded depth offset) = (lattice policy).leq a b) := by
  have order {x y : Tree} (wf : y.WellFormed) :
      (lattice policy).leq x y = true ↔ x.Below policy y := leq_iff wf
  have wfBounded : (b.bounded depth offset).WellFormed := wellFormed_bounded depth offset wfB
  refine ⟨wellFormed_bounded depth offset wfA, ?_, bounded_bounded_beq a depth offset, ?_,
    bounded_beq_iff, ?_⟩
  · rw [order wfA]
    exact bounded_below policy a depth offset
  · rw [order wfB, order wfBounded]
    exact bounded_mono depth offset
  · intro within
    rw [Bool.eq_iff_iff, order wfBounded, order wfB]
    exact below_bounded_iff within

/-- An address of two fields. One holds `inner`, with a mark for what was not laid out behind it; the
other one, far away, holds `outer`. -/
def markedBesideFar (inner outer : Tag) : Tree := ofEntries .distinct
  [(.root, .pointer), (⟨.any, [.byte 0]⟩, inner), (⟨.any, [.byte 0, .any]⟩, .anything),
    (⟨.any, [.byte 16]⟩, outer)]

/-- Within one dereference and eight bytes the mark is kept and the far field is not. The larger tree
hides the mark behind an opaque field, which is kept as well, and has an address for the far
number. -/
theorem bounded_isInterior_marked :
    (markedBesideFar .pointer .integer).WellFormed ∧
      (markedBesideFar .anything .pointer).WellFormed ∧
      (lattice .unified).leq (markedBesideFar .pointer .integer)
        (markedBesideFar .anything .pointer) = true ∧
      ((markedBesideFar .pointer .integer).bounded 1 8).entries = [(.root, .pointer),
        (⟨.any, [.byte 0]⟩, .pointer), (⟨.any, [.byte 0, .any]⟩, .anything)] ∧
      ((markedBesideFar .anything .pointer).bounded 1 8).entries = [(.root, .pointer),
        (⟨.any, [.byte 0]⟩, .anything)] ∧
      (lattice .unified).leq ((markedBesideFar .pointer .integer).bounded 1 8)
        (markedBesideFar .pointer .integer) = true ∧
      (lattice .unified).leq ((markedBesideFar .pointer .integer).bounded 1 8)
        ((markedBesideFar .anything .pointer).bounded 1 8) = true := by
  have wfA : (markedBesideFar .pointer .integer).WellFormed := wellFormed_ofEntries _ _
  have wfB : (markedBesideFar .anything .pointer).WellFormed := wellFormed_ofEntries _ _
  have ordered : (lattice .unified).leq (markedBesideFar .pointer .integer)
      (markedBesideFar .anything .pointer) = true := by decide
  obtain ⟨-, smaller, -, monotone, -⟩ := bounded_isInterior .unified 1 8 wfA wfB
  exact ⟨wfA, wfB, ordered, by decide, by decide, smaller, monotone ordered⟩

end Tree

end ByteLayout
