import ByteLayout.Path.Basic

/-! # Hops and ancestors

A hop and the number that is written for it determine each other.

A path is an ancestor of another one when it is a proper prefix of it. Ancestry is a strict order,
and `ancestors` lists exactly the ancestors. A step of an access chain that moves on keeps them, and
one that dereferences adds the path that it starts from. -/

namespace ByteLayout

namespace Hop

theorem ofInt?_eq_some_iff {n : Int} {hop : Hop} : ofInt? n = some hop ↔ n = hop.toInt := by
  unfold ofInt?
  cases hop <;> simp only [toInt] <;> split
  · simp
    omega
  · split <;> simp_all
  · simp
    omega
  · split
    · simp
      omega
    · simp
      omega

theorem toInt_injective {a b : Hop} (same : a.toInt = b.toInt) : a = b := by
  have read : some a = some b := by
    rw [← ofInt?_eq_some_iff.mpr rfl, ← ofInt?_eq_some_iff.mpr same]
  exact Option.some.inj read

theorem neg_one_le_toInt (hop : Hop) : -1 ≤ hop.toInt := by
  cases hop <;> simp only [toInt] <;> omega

theorem exists_toInt_eq {n : Int} (low : -1 ≤ n) : ∃ hop : Hop, hop.toInt = n := by
  by_cases wild : n = -1
  · exact ⟨.any, wild.symm⟩
  · exact ⟨.byte n.toNat, by simp only [toInt]; omega⟩

end Hop

namespace Path

theorem isAncestorOf_iff {p q : Path} :
    p.isAncestorOf q = true ↔
      p.first = q.first ∧ p.rest <+: q.rest ∧ p.rest.length < q.rest.length := by
  simp [isAncestorOf, and_assoc]

theorem not_isAncestorOf_self (p : Path) : ¬ p.isAncestorOf p = true := by
  intro h
  exact Nat.lt_irrefl _ (isAncestorOf_iff.mp h).2.2

theorem isAncestorOf_trans {p q r : Path} (pq : p.isAncestorOf q = true)
    (qr : q.isAncestorOf r = true) : p.isAncestorOf r = true := by
  rw [isAncestorOf_iff] at pq qr ⊢
  exact ⟨pq.1.trans qr.1, pq.2.1.trans qr.2.1, Nat.lt_trans pq.2.2 qr.2.2⟩

/-- Two ancestors of the same path are ordered by ancestry. -/
theorem isAncestorOf_or_of_isAncestorOf {p q r : Path} (pr : p.isAncestorOf r = true)
    (qr : q.isAncestorOf r = true) :
    p = q ∨ p.isAncestorOf q = true ∨ q.isAncestorOf p = true := by
  rw [isAncestorOf_iff] at pr qr
  obtain ⟨pFirst, pRest, -⟩ := pr
  obtain ⟨qFirst, qRest, -⟩ := qr
  have first : p.first = q.first := pFirst.trans qFirst.symm
  rcases Nat.lt_trichotomy p.rest.length q.rest.length with shorter | same | longer
  · exact Or.inr (Or.inl (isAncestorOf_iff.mpr
      ⟨first, List.prefix_of_prefix_length_le pRest qRest (Nat.le_of_lt shorter), shorter⟩))
  · have rest : p.rest = q.rest :=
      (List.prefix_of_prefix_length_le pRest qRest (Nat.le_of_eq same)).eq_of_length same
    left
    cases p; cases q
    simp_all
  · exact Or.inr (Or.inr (isAncestorOf_iff.mpr
      ⟨first.symm, List.prefix_of_prefix_length_le qRest pRest (Nat.le_of_lt longer), longer⟩))

theorem mem_ancestors_iff {p q : Path} : p ∈ q.ancestors ↔ p.isAncestorOf q = true := by
  rw [isAncestorOf_iff]
  simp only [ancestors, List.mem_map, List.mem_range]
  constructor
  · rintro ⟨n, below, rfl⟩
    refine ⟨rfl, List.take_prefix n q.rest, ?_⟩
    exact Nat.lt_of_le_of_lt (List.length_take_le n q.rest) below
  · rintro ⟨first, rest, shorter⟩
    refine ⟨p.rest.length, shorter, ?_⟩
    rw [← first, ← List.prefix_iff_eq_take.mp rest]

/-! ## Steps of access chains -/

@[simp] theorem follow_any (p : Path) : p.follow .any = p.append (.byte 0) := rfl

@[simp] theorem follow_byte (p : Path) (n : Nat) : p.follow (.byte n) = p.shiftLast n := rfl

@[simp] theorem depth_append (p : Path) (hop : Hop) : (p.append hop).depth = p.depth + 1 := by
  simp [append, depth]

@[simp] theorem last_append (p : Path) (hop : Hop) : (p.append hop).last = hop := by
  simp [append, last, List.getLastD_eq_getLast?]

theorem append_parent_last {p : Path} (deep : p.rest ≠ []) : p.parent.append p.last = p := by
  obtain ⟨first, rest⟩ := p
  simp only [append, parent, last, mk.injEq, true_and]
  rw [List.getLastD_eq_getLast?, List.getLast?_eq_some_getLast deep, Option.getD_some]
  exact List.dropLast_concat_getLast deep

@[simp] theorem depth_shiftLast (p : Path) (n : Nat) : (p.shiftLast n).depth = p.depth := by
  unfold shiftLast
  split
  · next flat => simp_all [depth]
  · next deep =>
    rw [List.isEmpty_iff] at deep
    conv => rhs; rw [← append_parent_last deep]
    rw [depth_append, depth_append]

/-- One more hop adds the path itself to the objects on the way. -/
theorem isAncestorOf_append_iff {p q : Path} {hop : Hop} :
    q.isAncestorOf (p.append hop) = true ↔ q = p ∨ q.isAncestorOf p = true := by
  obtain ⟨first, rest⟩ := p
  obtain ⟨first', rest'⟩ := q
  simp only [isAncestorOf_iff, append, mk.injEq, ← and_or_left]
  refine and_congr_right fun _ => ?_
  rw [List.prefix_concat_iff, List.length_append, List.length_singleton]
  constructor
  · rintro ⟨whole | shorter, length⟩
    · rw [whole, List.length_append, List.length_singleton] at length
      omega
    · rcases Nat.lt_or_eq_of_le (Nat.le_of_lt_succ length) with less | same
      · exact Or.inr ⟨shorter, less⟩
      · exact Or.inl (shorter.eq_of_length same)
  · rintro (rfl | ⟨shorter, length⟩)
    · exact ⟨Or.inr (List.prefix_refl _), Nat.lt_succ_self _⟩
    · exact ⟨Or.inr shorter, Nat.lt_succ_of_lt length⟩

/-- Moving on at the same depth leaves the objects on the way as they are. -/
theorem isAncestorOf_shiftLast_iff {p q : Path} {n : Nat} :
    q.isAncestorOf (p.shiftLast n) = true ↔ q.isAncestorOf p = true := by
  unfold shiftLast
  split
  · next flat => simp_all [isAncestorOf_iff]
  · next deep =>
    rw [List.isEmpty_iff] at deep
    conv => rhs; rw [← append_parent_last deep]
    rw [isAncestorOf_append_iff, isAncestorOf_append_iff]

theorem not_isAncestorOf_root (p : Path) : ¬ p.isAncestorOf root = true := by
  simp [isAncestorOf_iff, root]

end Path

end ByteLayout
