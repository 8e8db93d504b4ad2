import ByteLayout.OrderedMap.Lemmas
import ByteLayout.Tree.Basic

/-! # Dropping entries

Each of these keeps some entries of a tree with their tags unchanged, so that a well-formed tree stays
well-formed. -/

namespace ByteLayout.Tree

/-- The entries that pass a test. -/
def filter (keep : Path → Tag → Bool) (t : Tree) : Tree := ⟨t.map.filter keep⟩

/-- The tree without contradictory entries. -/
def purge (t : Tree) : Tree := t.filter fun _ tag => tag ≠ .anything

/-- The entries all of whose hops are at most `n`. -/
def atMost (n : Int) (t : Tree) : Tree := t.filter fun p _ => p.maxOffset ≤ n

/-- Whether an entry marks a pointee that was not laid out because it lies just below a depth. -/
def isCutoffMarker (depth : Int) (p : Path) (tag : Tag) : Bool :=
  p.depth = depth + 1 && p.last = .any && tag = .anything

/-- The entries down to a depth, with the markers just below it. -/
def truncate (depth : Int) (t : Tree) : Tree :=
  t.filter fun p tag => p.depth ≤ depth || isCutoffMarker depth p tag

/-- The part of a tree that lies within a depth and an offset. -/
def bounded (depth offset : Nat) (t : Tree) : Tree := (t.truncate depth).atMost offset

variable {t : Tree} {p : Path} {tag : Tag} {depth : Nat}

theorem get?_filter_eq_some_iff {keep : Path → Tag → Bool} :
    (t.filter keep).get? p = some tag ↔ t.get? p = some tag ∧ keep p tag = true := by
  change (t.map.filter keep).get? p = some tag ↔ _
  rw [OrderedMap.get?_filter, Option.filter_eq_some_iff]
  rfl

/-- Dropping entries keeps a tree well-formed. -/
theorem wellFormed_filter (keep : Path → Tag → Bool) (wf : t.WellFormed) :
    (t.filter keep).WellFormed := by
  constructor
  · intro p stored
    exact wf.known p (get?_filter_eq_some_iff.mp stored).1
  · intro p q tag above atP atQ
    obtain ⟨other, found⟩ := Option.isSome_iff_exists.mp atQ
    refine wf.pointers p q tag above (get?_filter_eq_some_iff.mp atP).1 ?_
    rw [(get?_filter_eq_some_iff.mp found).1]
    rfl

theorem get?_truncate_eq_some_iff :
    (t.truncate depth).get? p = some tag ↔ t.get? p = some tag ∧
      (p.depth ≤ depth ∨ (p.depth = depth + 1 ∧ p.last = .any ∧ tag = .anything)) := by
  have shallow : (p.depth : Int) ≤ (depth : Int) ↔ p.depth ≤ depth := by omega
  have deep : (p.depth : Int) = (depth : Int) + 1 ↔ p.depth = depth + 1 := by omega
  rw [truncate, get?_filter_eq_some_iff]
  simp only [isCutoffMarker, Bool.or_eq_true, Bool.and_eq_true, decide_eq_true_eq, and_assoc,
    shallow, deep]

theorem wellFormed_bounded (depth offset : Nat) (wf : t.WellFormed) :
    (t.bounded depth offset).WellFormed :=
  wellFormed_filter _ (wellFormed_filter _ wf)

end ByteLayout.Tree
