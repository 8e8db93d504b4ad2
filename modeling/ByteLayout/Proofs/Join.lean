import ByteLayout.Proofs.TreeOrder

/-! # Joins are least upper bounds

Bringing a map into form yields the least well-formed tree above the map. Adding tags to a map yields
the least map above the old one and the tags. So the join of two trees is the least well-formed tree
above both, and the laws of joins follow from that alone; so does the path-by-path reading of the
order that is computed from joins. -/

namespace ByteLayout.Tree

variable {policy : Policy} {a b c t : Tree} {p q : Path} {tag : Tag} {m : OrderedMap Path Tag}

/-! ## Bringing a map into form -/

theorem tag_known (m : OrderedMap Path Tag) (p : Path) : (mk (known m)).tag p = (mk m).tag p := by
  change ((known m).get? p).getD .bottom = (m.get? p).getD .bottom
  rw [known, OrderedMap.get?_filter]
  cases m.get? p with
  | none => rfl
  | some tag => by_cases unknown : tag = .bottom <;> simp [Option.filter, unknown]

theorem tag_promote (policy : Policy) (m : OrderedMap Path Tag) (p : Path) :
    (mk (promote policy m)).tag p =
      if ((mk m).tag p).isScalar && hasDescendant m p then ((mk m).tag p).join policy .pointer
      else (mk m).tag p := by
  change ((promote policy m).get? p).getD .bottom = _
  have reading : (mk m).tag p = (m.get? p).getD .bottom := rfl
  rw [get?_promote, reading]
  cases m.get? p with
  | none => simp [Tag.isScalar]
  | some tag => rfl

theorem tag_normalize (policy : Policy) (m : OrderedMap Path Tag) (p : Path) :
    (normalize policy m).tag p =
      if isHidden (promote policy (known m)) p then .bottom
      else (mk (promote policy (known m))).tag p := by
  change ((normalize policy m).get? p).getD .bottom = _
  rw [get?_normalize]
  split <;> rfl

theorem hasDescendant_known_iff :
    hasDescendant (known m) p = true ↔ ∃ q, p.isAncestorOf q = true ∧ (mk m).tag q ≠ .bottom := by
  rw [hasDescendant_iff]
  constructor
  · rintro ⟨q, above, stored⟩
    obtain ⟨tag, found⟩ := Option.isSome_iff_exists.mp stored
    have read := get?_known_eq_some_iff.mp found
    refine ⟨q, above, ?_⟩
    rw [tag_of_get? (t := mk m) read.1]
    exact read.2
  · rintro ⟨q, above, known⟩
    refine ⟨q, above, ?_⟩
    rw [get?_known_eq_some_iff.mpr ⟨get?_of_tag_ne_bottom known, known⟩]
    rfl

/-- On the way to a hidden path there is an opaque entry that is not hidden itself. -/
theorem exists_shown_of_isHidden {p : Path} (hidden : isHidden m p = true) :
    ∃ q, q.isAncestorOf p = true ∧ m.get? q = some .anything ∧ ¬ isHidden m q = true := by
  obtain ⟨q, above, found⟩ := isHidden_iff.mp hidden
  by_cases shown : isHidden m q = true
  · obtain ⟨r, below, rest⟩ := exists_shown_of_isHidden shown
    exact ⟨r, Path.isAncestorOf_trans below above, rest⟩
  · exact ⟨q, above, found, shown⟩
termination_by p.rest.length
decreasing_by exact (Path.isAncestorOf_iff.mp above).2.2

theorem below_promote (policy : Policy) (m : OrderedMap Path Tag) (p : Path) :
    ((mk m).tag p).Below policy ((mk (promote policy (known m))).tag p) := by
  rw [tag_promote, tag_known]
  split
  · exact Tag.below_join_left policy _ _
  · exact Tag.below_refl policy _

/-- Bringing a map into form loses nothing. -/
theorem mk_below_normalize (policy : Policy) (m : OrderedMap Path Tag) :
    (mk m).Below policy (normalize policy m) := by
  intro p
  by_cases hidden : isHidden (promote policy (known m)) p = true
  · obtain ⟨q, above, found, shown⟩ := exists_shown_of_isHidden hidden
    left
    refine ⟨q, above, ?_⟩
    rw [get?_normalize, if_neg shown]
    exact found
  · right
    rw [tag_normalize, if_neg hidden]
    exact below_promote policy m p

/-- Where an entry lies on the way to another one, a well-formed tree above both covers its join with
a pointer. -/
theorem WellFormed.covers_join_pointer (wf : t.WellFormed) (above : p.isAncestorOf q = true)
    {atP atQ : Tag} (knownP : atP ≠ .bottom) (knownQ : atQ ≠ .bottom)
    (coversP : t.Covers policy p atP) (coversQ : t.Covers policy q atQ) :
    t.Covers policy p (atP.join policy .pointer) := by
  refine covers_join_iff.mpr ⟨coversP, ?_⟩
  rcases coversP with hidden | storedP
  · exact Or.inl hidden
  · have present : t.tag p ≠ .bottom := storedP.ne_bottom knownP
    -- Whatever covers the lower entry leaves only a pointer or a contradiction at `p`.
    rcases coversQ with ⟨r, belowQ, found⟩ | storedQ
    · rcases Path.isAncestorOf_or_of_isAncestorOf above belowQ with same | below | higher
      · right
        rw [tag_of_get? (same ▸ found)]
        exact Tag.below_anything policy _
      · have knownR : t.tag r ≠ .bottom := by
          rw [tag_of_get? found]; decide
        rcases wf.tag_on_way below knownR with unknown | pointer
        · exact absurd unknown present
        · right
          rw [pointer]
          exact Tag.below_refl policy _
      · exact Or.inl ⟨r, higher, found⟩
    · rcases wf.tag_on_way above (storedQ.ne_bottom knownQ) with unknown | pointer
      · exact absurd unknown present
      · right
        rw [pointer]
        exact Tag.below_refl policy _

theorem covers_promote (wf : t.WellFormed) (below : (mk m).Below policy t) (p : Path) :
    t.Covers policy p ((mk (promote policy (known m))).tag p) := by
  rw [tag_promote, tag_known]
  split
  · next promoted =>
    rw [Bool.and_eq_true] at promoted
    obtain ⟨scalar, parent⟩ := promoted
    obtain ⟨q, above, knownQ⟩ := hasDescendant_known_iff.mp parent
    have knownP : (mk m).tag p ≠ .bottom := by
      intro unknown
      rw [unknown] at scalar
      cases scalar
    exact wf.covers_join_pointer above knownP knownQ (below p) (below q)
  · exact below p

/-- Bringing a map into form adds nothing that a well-formed tree above the map lacks. -/
theorem normalize_below (wf : t.WellFormed) (below : (mk m).Below policy t) :
    (normalize policy m).Below policy t := by
  intro p
  rw [tag_normalize]
  split
  · exact covers_bottom policy t p
  · exact covers_promote wf below p

theorem normalize_below_iff (wf : t.WellFormed) :
    (normalize policy m).Below policy t ↔ (mk m).Below policy t :=
  ⟨fun below => (mk_below_normalize policy m).trans below, normalize_below wf⟩

/-! ## Adding tags -/

theorem tag_addTag (policy : Policy) (m : OrderedMap Path Tag) (p : Path) (tag : Tag) (q : Path) :
    (mk (addTag policy m p tag)).tag q =
      if tag ≠ .bottom ∧ q = p then ((mk m).tag p).join policy tag else (mk m).tag q := by
  change ((addTag policy m p tag).get? q).getD .bottom = _
  rw [get?_addTag]
  split <;> rfl

theorem addTag_below_iff :
    (mk (addTag policy m p tag)).Below policy t ↔
      (mk m).Below policy t ∧ t.Covers policy p tag := by
  constructor
  · intro below
    have atP := below p
    rw [tag_addTag] at atP
    by_cases unknown : tag = .bottom
    · refine ⟨fun q => ?_, by rw [unknown]; exact covers_bottom policy t p⟩
      have atQ := below q
      rwa [tag_addTag, if_neg (fun h => h.1 unknown)] at atQ
    · rw [if_pos ⟨unknown, rfl⟩, covers_join_iff] at atP
      refine ⟨fun q => ?_, atP.2⟩
      by_cases same : q = p
      · rw [same]; exact atP.1
      · have atQ := below q
        rwa [tag_addTag, if_neg (fun h => same h.2)] at atQ
  · rintro ⟨below, covered⟩ q
    rw [tag_addTag]
    split
    · next changed =>
      rw [changed.2]
      exact covers_join_iff.mpr ⟨below p, covered⟩
    · exact below q

theorem addAll_below_iff (es : List (Path × Tag)) :
    (mk (addAll policy m es)).Below policy t ↔
      (mk m).Below policy t ∧ ∀ e ∈ es, t.Covers policy e.1 e.2 := by
  induction es generalizing m with
  | nil => simp [addAll]
  | cons e rest ih =>
    change (mk (addAll policy (addTag policy m e.1 e.2) rest)).Below policy t ↔ _
    rw [ih, addTag_below_iff, List.forall_mem_cons, and_assoc]

theorem covers_entries_iff :
    (∀ e ∈ a.entries, t.Covers policy e.1 e.2) ↔ a.Below policy t := by
  constructor
  · intro covered p
    by_cases unknown : a.tag p = .bottom
    · rw [unknown]; exact covers_bottom policy t p
    · exact covered (p, a.tag p) (OrderedMap.mem_entries_iff.mpr (get?_of_tag_ne_bottom unknown))
  · rintro below ⟨p, tag⟩ member
    have covered := below p
    rwa [tag_of_get? (OrderedMap.mem_entries_iff.mp member)] at covered

/-- The tree of a list of entries is the least well-formed one that covers them. -/
theorem ofEntries_below_iff (wf : t.WellFormed) (es : List (Path × Tag)) :
    (ofEntries policy es).Below policy t ↔ ∀ e ∈ es, t.Covers policy e.1 e.2 := by
  rw [ofEntries, normalize_below_iff wf, addAll_below_iff]
  exact and_iff_right (empty_below policy t)

theorem wellFormed_empty : empty.WellFormed :=
  ⟨fun _ => by simp [empty, get?], fun _ _ _ _ found => by simp [empty, get?] at found⟩

/-! ## Joins -/

theorem wellFormed_ofEntries (policy : Policy) (es : List (Path × Tag)) :
    (ofEntries policy es).WellFormed := wellFormed_normalize policy _

theorem wellFormed_merge (policy : Policy) (a b : Tree) : (a.merge policy b).WellFormed :=
  wellFormed_normalize policy _

/-- The join of any two trees is the least well-formed tree above both. -/
theorem merge_below_iff (wf : t.WellFormed) :
    (a.merge policy b).Below policy t ↔ a.Below policy t ∧ b.Below policy t := by
  rw [merge, normalize_below_iff wf, addAll_below_iff, covers_entries_iff]

theorem below_merge_left (policy : Policy) (a b : Tree) : a.Below policy (a.merge policy b) :=
  ((merge_below_iff (wellFormed_merge policy a b)).mp (below_refl policy _)).1

theorem below_merge_right (policy : Policy) (a b : Tree) : b.Below policy (a.merge policy b) :=
  ((merge_below_iff (wellFormed_merge policy a b)).mp (below_refl policy _)).2

/-- The computed order is the order of trees. -/
theorem leq_iff (wf : b.WellFormed) : a.leq policy b = true ↔ a.Below policy b := by
  constructor
  · intro absorbed
    exact (below_merge_left policy a b).trans (below_of_beq policy absorbed)
  · intro below
    exact Below.antisymm (wellFormed_merge policy a b) wf
      ((merge_below_iff wf).mpr ⟨below, below_refl policy b⟩) (below_merge_right policy a b)

/-- Trees with the same well-formed trees above them are the same. -/
theorem beq_of_below_iff (policy : Policy) (wfA : a.WellFormed) (wfB : b.WellFormed)
    (same : ∀ t : Tree, t.WellFormed → (a.Below policy t ↔ b.Below policy t)) :
    (a == b) = true :=
  Below.antisymm wfA wfB ((same b wfB).mpr (below_refl policy b))
    ((same a wfA).mp (below_refl policy a))

theorem merge_self_beq (wf : a.WellFormed) : (a.merge policy a == a) = true := by
  apply beq_of_below_iff policy (wellFormed_merge policy a a) wf
  intro t wfT
  rw [merge_below_iff wfT, and_self]

theorem merge_empty_beq (wf : a.WellFormed) : (a.merge policy empty == a) = true := by
  apply beq_of_below_iff policy (wellFormed_merge policy a empty) wf
  intro t wfT
  rw [merge_below_iff wfT]
  exact and_iff_left (empty_below policy t)

theorem merge_comm_beq (policy : Policy) (a b : Tree) :
    (a.merge policy b == b.merge policy a) = true := by
  apply beq_of_below_iff policy (wellFormed_merge policy a b) (wellFormed_merge policy b a)
  intro t wfT
  rw [merge_below_iff wfT, merge_below_iff wfT, and_comm]

theorem merge_assoc_beq (policy : Policy) (a b c : Tree) :
    ((a.merge policy b).merge policy c == a.merge policy (b.merge policy c)) = true := by
  apply beq_of_below_iff policy (wellFormed_merge policy _ c) (wellFormed_merge policy a _)
  intro t wfT
  rw [merge_below_iff wfT, merge_below_iff wfT, merge_below_iff wfT, merge_below_iff wfT, and_assoc]

/-- A tree lies below another one exactly when joining it in changes nothing. -/
theorem lattice_leq_eq_merge_beq (policy : Policy) (other t : Tree) :
    (lattice policy).leq other t = (t.merge policy other == t) := by
  rw [Bool.eq_iff_iff]
  change (other.merge policy t == t) = true ↔ _
  have swapped := beq_iff.mp (merge_comm_beq policy other t)
  simp only [beq_iff, swapped]

/-- Under either policy the well-formed trees are a join-semilattice: joins are idempotent, have the
empty tree as their unit, and do not depend on order or grouping; the order that is read off them is
a partial order, and joins are its least upper bounds. -/
theorem merge_isJoinSemilattice (policy : Policy) {a b c : Tree} (wfA : a.WellFormed)
    (wfB : b.WellFormed) (wfC : c.WellFormed) :
    ((a.merge policy a == a) = true ∧
      (a.merge policy empty == a) = true ∧
      (a.merge policy b == b.merge policy a) = true ∧
      ((a.merge policy b).merge policy c == a.merge policy (b.merge policy c)) = true) ∧
    ((lattice policy).leq a a = true ∧
      ((lattice policy).leq a b = true → (lattice policy).leq b a = true → (a == b) = true) ∧
      ((lattice policy).leq a b = true → (lattice policy).leq b c = true →
        (lattice policy).leq a c = true)) ∧
    (((lattice policy).join a b).WellFormed ∧
      (lattice policy).leq a ((lattice policy).join a b) = true ∧
      (lattice policy).leq b ((lattice policy).join a b) = true ∧
      ((lattice policy).leq a c = true → (lattice policy).leq b c = true →
        (lattice policy).leq ((lattice policy).join a b) c = true)) := by
  have order {x y : Tree} (wf : y.WellFormed) :
      (lattice policy).leq x y = true ↔ x.Below policy y := leq_iff wf
  have joined : ((lattice policy).join a b).WellFormed := wellFormed_merge policy a b
  refine ⟨⟨merge_self_beq wfA, merge_empty_beq wfA, merge_comm_beq policy a b,
    merge_assoc_beq policy a b c⟩, ⟨?_, ?_, ?_⟩, joined, ?_, ?_, ?_⟩
  · rw [order wfA]
    exact below_refl policy a
  · rw [order wfB, order wfA]
    exact Below.antisymm wfA wfB
  · rw [order wfB, order wfC, order wfC]
    exact Below.trans
  · rw [order joined]
    exact below_merge_left policy a b
  · rw [order joined]
    exact below_merge_right policy a b
  · rw [order wfC, order wfC, order wfC]
    exact fun ac bc => (merge_below_iff wfC).mpr ⟨ac, bc⟩

/-- Grouping plays no part where the second tree turns the integer of the first one into a pointer
and the third one contradicts what the second one stores. -/
theorem merge_isJoinSemilattice_nested :
    (scalar .integer).WellFormed ∧
      (ofEntries .distinct [(⟨.any, [.byte 0]⟩, .float .double)]).WellFormed ∧
      (ofEntries .distinct [(⟨.any, [.byte 0, .byte 8]⟩, .integer)]).WellFormed ∧
      (((scalar .integer).merge .unified
          (ofEntries .distinct [(⟨.any, [.byte 0]⟩, .float .double)])).merge .unified
          (ofEntries .distinct [(⟨.any, [.byte 0, .byte 8]⟩, .integer)]) ==
        (scalar .integer).merge .unified
          ((ofEntries .distinct [(⟨.any, [.byte 0]⟩, .float .double)]).merge .unified
            (ofEntries .distinct [(⟨.any, [.byte 0, .byte 8]⟩, .integer)]))) = true :=
  ⟨wellFormed_normalize _ _, wellFormed_normalize _ _, wellFormed_normalize _ _,
    (merge_isJoinSemilattice .unified (wellFormed_normalize _ _) (wellFormed_normalize _ _)
      (wellFormed_normalize _ _)).1.2.2.2⟩

/-! ## The computed order, path by path -/

/-- A known tag is covered by an opaque entry on the way, or by a stored tag that lies at or above
it. -/
theorem covers_iff_stored (known : tag ≠ .bottom) :
    t.Covers policy p tag ↔
      (∃ q, q.isAncestorOf p = true ∧ t.get? q = some .anything) ∨
        ∃ upper, t.get? p = some upper ∧
          (tag = upper ∨ upper = .anything ∨
            (policy = .unified ∧ tag = .integer ∧ upper = .pointer)) := by
  refine or_congr_right ?_
  constructor
  · intro below
    refine ⟨t.tag p, get?_of_tag_ne_bottom (below.ne_bottom known), ?_⟩
    rcases below with unknown | top | same | reconciled
    · exact absurd unknown known
    · exact Or.inr (Or.inl top)
    · exact Or.inl same
    · exact Or.inr (Or.inr reconciled)
  · rintro ⟨upper, found, above⟩
    rw [tag_of_get? found]
    rcases above with same | top | reconciled
    · exact Or.inr (Or.inr (Or.inl same))
    · exact Or.inr (Or.inl top)
    · exact Or.inr (Or.inr (Or.inr reconciled))

/-- The order that is computed by joining and comparing whole trees can be read off path by path:
`a` lies below `b` exactly when for every path that `a` stores, an opaque entry of `b` stands on the
way to it, or `b` stores there the same tag, a contradiction, or, when an integer may carry an
address, a pointer for an integer. -/
theorem lattice_leq_iff_stored (policy : Policy) {a b : Tree} (wfA : a.WellFormed)
    (wfB : b.WellFormed) :
    (lattice policy).leq a b = true ↔
      ∀ p tag, a.get? p = some tag →
        (∃ q, q.isAncestorOf p = true ∧ b.get? q = some .anything) ∨
          ∃ upper, b.get? p = some upper ∧
            (tag = upper ∨ upper = .anything ∨
              (policy = .unified ∧ tag = .integer ∧ upper = .pointer)) := by
  have order : (lattice policy).leq a b = true ↔ a.Below policy b := leq_iff wfB
  rw [order, ← covers_entries_iff]
  constructor
  · intro covered p tag found
    have known : tag ≠ .bottom := fun unknown => wfA.known p (unknown ▸ found)
    exact (covers_iff_stored known).mp (covered (p, tag) (OrderedMap.mem_entries_iff.mpr found))
  · rintro stored ⟨p, tag⟩ member
    have found : a.get? p = some tag := OrderedMap.mem_entries_iff.mp member
    have known : tag ≠ .bottom := fun unknown => wfA.known p (unknown ▸ found)
    exact (covers_iff_stored known).mpr (stored p tag found)

/-- All three ways of lying below meet in one tree: an integer below a pointer, a pointer below a
contradiction, and a float that the contradiction hides. -/
theorem lattice_leq_iff_stored_nested :
    (ofEntries .distinct [(⟨.byte 0, []⟩, .integer), (⟨.byte 8, []⟩, .pointer),
        (⟨.byte 8, [.byte 4]⟩, .float .half)]).WellFormed ∧
      (ofEntries .distinct [(⟨.byte 0, []⟩, .pointer), (⟨.byte 8, []⟩, .anything)]).WellFormed ∧
      ∀ p tag, (ofEntries .distinct [(⟨.byte 0, []⟩, .integer), (⟨.byte 8, []⟩, .pointer),
          (⟨.byte 8, [.byte 4]⟩, .float .half)]).get? p = some tag →
        (∃ q, q.isAncestorOf p = true ∧ (ofEntries .distinct [(⟨.byte 0, []⟩, .pointer),
            (⟨.byte 8, []⟩, .anything)]).get? q = some .anything) ∨
          ∃ upper, (ofEntries .distinct [(⟨.byte 0, []⟩, .pointer),
              (⟨.byte 8, []⟩, .anything)]).get? p = some upper ∧
            (tag = upper ∨ upper = .anything ∨
              (Policy.unified = .unified ∧ tag = .integer ∧ upper = .pointer)) :=
  ⟨wellFormed_normalize _ _, wellFormed_normalize _ _,
    (lattice_leq_iff_stored .unified (wellFormed_normalize _ _) (wellFormed_normalize _ _)).mp
      (by decide)⟩

end ByteLayout.Tree
