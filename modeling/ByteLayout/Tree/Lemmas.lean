import ByteLayout.OrderedMap.Lemmas
import ByteLayout.Path.Lemmas
import ByteLayout.Tree.Merge

/-! # Readings of trees

What `get?` reads after the steps of a join, and that bringing a map into form yields a well-formed
tree whatever the map is. -/

namespace ByteLayout.Tree

theorem beq_iff {a b : Tree} : (a == b) = true ↔ ∀ p, a.get? p = b.get? p :=
  OrderedMap.beq_iff

theorem get?_addTag (policy : Policy) (m : OrderedMap Path Tag) (p : Path) (tag : Tag) (q : Path) :
    (addTag policy m p tag).get? q =
      if tag ≠ .bottom ∧ q = p then some (((m.get? p).getD .bottom).join policy tag)
      else m.get? q := by
  unfold addTag
  by_cases unknown : tag = .bottom
  · simp [unknown]
  · simp [unknown]

theorem hasDescendant_iff {m : OrderedMap Path Tag} {p : Path} :
    hasDescendant m p = true ↔ ∃ q, p.isAncestorOf q = true ∧ (m.get? q).isSome := by
  simp only [hasDescendant, List.any_eq_true]
  constructor
  · rintro ⟨⟨q, tag⟩, member, above⟩
    exact ⟨q, above, by rw [OrderedMap.mem_entries_iff.mp member]; rfl⟩
  · rintro ⟨q, above, stored⟩
    obtain ⟨tag, found⟩ := Option.isSome_iff_exists.mp stored
    exact ⟨(q, tag), OrderedMap.mem_entries_iff.mpr found, above⟩

theorem isHidden_iff {m : OrderedMap Path Tag} {p : Path} :
    isHidden m p = true ↔ ∃ q, q.isAncestorOf p = true ∧ m.get? q = some .anything := by
  simp only [isHidden, List.any_eq_true, Bool.and_eq_true, decide_eq_true_eq]
  constructor
  · rintro ⟨⟨q, tag⟩, member, opaqueTag, above⟩
    exact ⟨q, above, by rw [OrderedMap.mem_entries_iff.mp member]; exact congrArg some opaqueTag⟩
  · rintro ⟨q, above, found⟩
    exact ⟨(q, .anything), OrderedMap.mem_entries_iff.mpr found, rfl, above⟩

theorem get?_promote (policy : Policy) (m : OrderedMap Path Tag) (p : Path) :
    (promote policy m).get? p = (m.get? p).map fun tag =>
      if tag.isScalar && hasDescendant m p then tag.join policy .pointer else tag := by
  simp [promote]

theorem get?_known_eq_some_iff {m : OrderedMap Path Tag} {p : Path} {tag : Tag} :
    (known m).get? p = some tag ↔ m.get? p = some tag ∧ tag ≠ .bottom := by
  rw [known, OrderedMap.get?_filter, Option.filter_eq_some_iff, decide_eq_true_eq]

/-- The readings of a tree that was brought into form. -/
theorem get?_normalize (policy : Policy) (m : OrderedMap Path Tag) (p : Path) :
    (normalize policy m).get? p =
      if isHidden (promote policy (known m)) p then none
      else (promote policy (known m)).get? p := by
  change (OrderedMap.filter _ _).get? p = _
  rw [OrderedMap.get?_filter]
  generalize promote policy (known m) = promoted
  cases hidden : isHidden promoted p <;> cases promoted.get? p <;> simp

theorem join_pointer_of_isScalar {tag : Tag} (policy : Policy) (scalar : tag.isScalar = true) :
    tag.join policy .pointer = .pointer ∨ tag.join policy .pointer = .anything := by
  cases tag <;> cases policy <;> simp_all [Tag.isScalar, Tag.join, Tag.isAddressClash]

/-- Bringing a map into form yields a well-formed tree. -/
theorem wellFormed_normalize (policy : Policy) (m : OrderedMap Path Tag) :
    (normalize policy m).WellFormed := by
  constructor
  · intro p stored
    rw [get?_normalize] at stored
    split at stored
    · cases stored
    · rw [get?_promote, Option.map_eq_some_iff] at stored
      obtain ⟨tag, found, became⟩ := stored
      rw [get?_known_eq_some_iff] at found
      split at became
      · next scalar =>
        rw [Bool.and_eq_true] at scalar
        rcases join_pointer_of_isScalar policy scalar.1 with pointer | anything
        · rw [pointer] at became; cases became
        · rw [anything] at became; cases became
      · exact found.2 became
  · intro p q tag above atP atQ
    rw [get?_normalize] at atP atQ
    split at atQ
    · cases atQ
    · next shown =>
      split at atP
      · cases atP
      · have notOpaque : tag ≠ .anything := by
          intro opaqueTag
          exact shown (isHidden_iff.mpr ⟨p, above, opaqueTag ▸ atP⟩)
        rw [get?_promote, Option.map_eq_some_iff] at atP
        rw [get?_promote, Option.isSome_map] at atQ
        obtain ⟨old, found, became⟩ := atP
        have parent : hasDescendant (known m) p = true :=
          hasDescendant_iff.mpr ⟨q, above, atQ⟩
        rw [parent, Bool.and_true] at became
        split at became
        · next scalar =>
          rcases join_pointer_of_isScalar policy scalar with pointer | anything
          · rw [← became, pointer]
          · exact absurd (became.symm.trans anything) notOpaque
        · next notScalar =>
          rw [get?_known_eq_some_iff] at found
          subst became
          cases old <;> simp_all [Tag.isScalar]

end ByteLayout.Tree
