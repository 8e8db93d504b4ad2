import ByteLayout.Proofs.Join

/-! # How far meets are greatest lower bounds

The meet of two trees keeps the paths that both of them store, with the meets of their tags. It lies
below both trees. An opaque entry stands for everything behind it without storing any of it, so the
meet of an opaque object with a known one loses what the known one stores behind its first path.
Apart from what only one of the two trees hides in this way, the meet is the greatest tree below
both. -/

namespace ByteLayout

namespace Tag

variable {a b c : Tag}

theorem bottom_meet (b : Tag) : meet .bottom b = .bottom := by
  unfold meet
  split
  · next impossible => cases impossible
  · split <;> simp_all

theorem meet_bottom (a : Tag) : meet a .bottom = .bottom := by
  unfold meet
  split
  · rfl
  · split
    · next impossible => cases impossible
    · split <;> simp_all

/-- Meets of tags are greatest lower bounds when integers carry no addresses. -/
theorem below_meet_iff :
    Below .distinct c (a.meet b) ↔ Below .distinct c a ∧ Below .distinct c b := by
  unfold meet
  split
  · next top => simp [top]
  · next notTop =>
    split
    · next top => simp [top]
    · next notTop' =>
      split
      · next same => rw [same, and_self]
      · next different =>
        -- Only the unknown tag lies below two different tags neither of which is contradictory.
        simp only [Below, notTop, notTop', reduceCtorEq, false_and, or_false, false_or, or_self]
        constructor
        · intro unknown
          exact ⟨Or.inl unknown, Or.inl unknown⟩
        · rintro ⟨unknown | rfl, unknown' | same⟩
          · exact unknown
          · exact unknown
          · exact unknown'
          · exact absurd same different

theorem meet_eq_anything_iff : a.meet b = .anything ↔ a = .anything ∧ b = .anything := by
  have top (t : Tag) : t = .anything ↔ Below .distinct .anything t := anything_below_iff.symm
  rw [top, top a, top b, below_meet_iff]

end Tag

namespace Tree

variable {policy : Policy} {a b c : Tree} {p q : Path} {m : OrderedMap Path Tag}

/-- Bringing a map into form only drops the unknown tags when the others are in form. -/
theorem normalize_beq_known (policy : Policy) (wf : (mk (known m)).WellFormed) :
    (normalize policy m == mk (known m)) = true := by
  apply beq_of_below_iff policy (wellFormed_normalize policy m) wf
  intro t wfT
  rw [normalize_below_iff wfT]
  simp only [Below, tag_known]

/-! ## What a meet stores -/

/-- The map of the meets of the tags that two trees store. -/
def meetMap (a b : Tree) : OrderedMap Path Tag := a.map.map fun p tag => tag.meet (b.tag p)

theorem tag_meetMap (a b : Tree) (p : Path) :
    (mk (meetMap a b)).tag p = (a.tag p).meet (b.tag p) := by
  change ((meetMap a b).get? p).getD .bottom = ((a.map.get? p).getD .bottom).meet (b.tag p)
  rw [meetMap, OrderedMap.get?_map]
  cases a.map.get? p with
  | none => exact (Tag.bottom_meet _).symm
  | some tag => rfl

theorem wellFormed_known_meetMap (wfA : a.WellFormed) (wfB : b.WellFormed) :
    (mk (known (meetMap a b))).WellFormed := by
  have both {p : Path} (present : (mk (known (meetMap a b))).tag p ≠ .bottom) :
      a.tag p ≠ .bottom ∧ b.tag p ≠ .bottom := by
    rw [tag_known, tag_meetMap] at present
    constructor
    · intro unknown
      exact present (by rw [unknown, Tag.bottom_meet])
    · intro unknown
      exact present (by rw [unknown, Tag.meet_bottom])
  have present {p : Path} {tag : Tag} (found : (mk (known (meetMap a b))).get? p = some tag) :
      (mk (known (meetMap a b))).tag p ≠ .bottom := by
    rw [tag_of_get? found]
    exact (get?_known_eq_some_iff.mp found).2
  constructor
  · intro p found
    exact (get?_known_eq_some_iff.mp found).2 rfl
  · intro p q tag above atP atQ
    obtain ⟨other, found⟩ := Option.isSome_iff_exists.mp atQ
    obtain ⟨inA, inB⟩ := both (present atP)
    obtain ⟨inA', inB'⟩ := both (present found)
    have pointerA := (wfA.tag_on_way above inA').resolve_left inA
    have pointerB := (wfB.tag_on_way above inB').resolve_left inB
    rw [← tag_of_get? atP, tag_known, tag_meetMap, pointerA, pointerB]
    rfl

/-- A meet stores the meets of the tags of both trees. -/
theorem tag_meet (wfA : a.WellFormed) (wfB : b.WellFormed) (p : Path) :
    (a.meet b).tag p = (a.tag p).meet (b.tag p) := by
  have same : (a.meet b == mk (known (meetMap a b))) = true :=
    normalize_beq_known .distinct (wellFormed_known_meetMap wfA wfB)
  rw [tag_eq_of_beq same p, tag_known, tag_meetMap]

theorem wellFormed_meet (a b : Tree) : (a.meet b).WellFormed := wellFormed_normalize _ _

/-- Both trees hide a path behind the same opaque entry. -/
def HideAlike (a b : Tree) (p : Path) : Prop :=
  ∃ q, q.isAncestorOf p = true ∧ a.get? q = some .anything ∧ b.get? q = some .anything

theorem meet_hides_iff (wfA : a.WellFormed) (wfB : b.WellFormed) :
    (a.meet b).Hides p ↔ HideAlike a b p := by
  refine exists_congr fun q => and_congr_right fun _ => ?_
  rw [← tag_eq_anything_iff, tag_meet wfA wfB, Tag.meet_eq_anything_iff, tag_eq_anything_iff,
    tag_eq_anything_iff]

/-! ## The order -/

theorem meet_below_left (wfA : a.WellFormed) (wfB : b.WellFormed) :
    (a.meet b).Below .distinct a := by
  intro p
  right
  rw [tag_meet wfA wfB]
  exact (Tag.below_meet_iff.mp (Tag.below_refl _ _)).1

theorem meet_below_right (wfA : a.WellFormed) (wfB : b.WellFormed) :
    (a.meet b).Below .distinct b := by
  intro p
  right
  rw [tag_meet wfA wfB]
  exact (Tag.below_meet_iff.mp (Tag.below_refl _ _)).2

/-- What lies below a meet lies below both trees, and whatever one of them hides, both hide alike. -/
theorem Below.hideAlike (wfA : a.WellFormed) (wfB : b.WellFormed)
    (below : c.Below .distinct (a.meet b)) (known : c.tag p ≠ .bottom)
    (hidden : a.Hides p ∨ b.Hides p) : HideAlike a b p := by
  rcases below p with hides | stored
  · exact (meet_hides_iff wfA wfB).mp hides
  · rw [tag_meet wfA wfB, Tag.below_meet_iff] at stored
    rcases hidden with hidden | hidden
    · rw [wfA.tag_of_hides hidden] at stored
      exact absurd (Tag.below_bottom_iff.mp stored.1) known
    · rw [wfB.tag_of_hides hidden] at stored
      exact absurd (Tag.below_bottom_iff.mp stored.2) known

theorem below_meet (wfA : a.WellFormed) (wfB : b.WellFormed) (belowA : c.Below .distinct a)
    (belowB : c.Below .distinct b)
    (alike : ∀ p, c.tag p ≠ .bottom → a.Hides p ∨ b.Hides p → HideAlike a b p) :
    c.Below .distinct (a.meet b) := by
  intro p
  by_cases unknown : c.tag p = .bottom
  · rw [unknown]
    exact covers_bottom _ _ p
  · by_cases hidden : a.Hides p ∨ b.Hides p
    · exact Or.inl ((meet_hides_iff wfA wfB).mpr (alike p unknown hidden))
    · rw [not_or] at hidden
      right
      rw [tag_meet wfA wfB, Tag.below_meet_iff]
      exact ⟨(belowA p).resolve_left hidden.1, (belowB p).resolve_left hidden.2⟩

/-- A tree lies below the meet of two trees exactly when it lies below both of them and, wherever it
stores something behind an opaque entry of one of them, the two have an opaque entry on the way in
common. -/
theorem lattice_meet_greatest_where_hidden_alike {a b c : Tree} (wfA : a.WellFormed)
    (wfB : b.WellFormed) (wfC : c.WellFormed) :
    ∃ m, (lattice .distinct).meet a b = .ok m ∧ m.WellFormed ∧
      ((lattice .distinct).leq c m = true ↔
        ((lattice .distinct).leq c a = true ∧ (lattice .distinct).leq c b = true) ∧
          ∀ p, (c.get? p).isSome = true → a.Hides p ∨ b.Hides p →
            ∃ q, q.isAncestorOf p = true ∧ a.get? q = some .anything ∧
              b.get? q = some .anything) := by
  have order {x y : Tree} (wf : y.WellFormed) :
      (lattice .distinct).leq x y = true ↔ x.Below .distinct y := leq_iff wf
  have stored (p : Path) : (c.get? p).isSome = true ↔ c.tag p ≠ .bottom := by
    rw [wfC.get?_eq]
    split <;> simp_all
  refine ⟨a.meet b, rfl, wellFormed_meet a b, ?_⟩
  simp only [order (wellFormed_meet a b), order wfA, order wfB, stored]
  constructor
  · intro below
    exact ⟨⟨below.trans (meet_below_left wfA wfB), below.trans (meet_below_right wfA wfB)⟩,
      fun p known hidden => below.hideAlike wfA wfB known hidden⟩
  · rintro ⟨⟨belowA, belowB⟩, alike⟩
    exact below_meet wfA wfB belowA belowB alike

/-- An address of two fields, the first one opaque. -/
def opaqueFirst (second : Tag) : Tree := ofEntries .distinct
  [(.root, .pointer), (⟨.any, [.byte 0]⟩, .anything), (⟨.any, [.byte 8]⟩, second)]

/-- An address of an address and a number; behind the inner address lies a number, too. -/
def addressFirst : Tree := ofEntries .distinct
  [(.root, .pointer), (⟨.any, [.byte 0]⟩, .pointer), (⟨.any, [.byte 0, .byte 4]⟩, .integer),
    (⟨.any, [.byte 8]⟩, .integer)]

/-- What lies behind the inner address is hidden alike by two trees with an opaque first field, so it
lies below their meet, where the second field is a number although one tree has a contradiction. -/
theorem lattice_meet_greatest_where_hidden_alike_first :
    (opaqueFirst .integer).WellFormed ∧ (opaqueFirst .anything).WellFormed ∧
      addressFirst.WellFormed ∧
      ∃ m, (lattice .distinct).meet (opaqueFirst .integer) (opaqueFirst .anything) = .ok m ∧
        (lattice .distinct).leq addressFirst m = true ∧
        ((lattice .distinct).leq addressFirst (opaqueFirst .integer) = true ∧
          (lattice .distinct).leq addressFirst (opaqueFirst .anything) = true) ∧
        ∃ q, q.isAncestorOf ⟨.any, [.byte 0, .byte 4]⟩ = true ∧
          (opaqueFirst .integer).get? q = some .anything ∧
          (opaqueFirst .anything).get? q = some .anything := by
  have wfA : (opaqueFirst .integer).WellFormed := wellFormed_normalize _ _
  have wfB : (opaqueFirst .anything).WellFormed := wellFormed_normalize _ _
  have wfC : addressFirst.WellFormed := wellFormed_normalize _ _
  obtain ⟨m, ok, -, greatest⟩ := lattice_meet_greatest_where_hidden_alike wfA wfB wfC
  have below : (lattice .distinct).leq addressFirst m = true := by
    cases ok
    decide
  have inside := greatest.mp below
  refine ⟨wfA, wfB, wfC, m, ok, below, inside.1, inside.2 _ rfl (Or.inl ?_)⟩
  exact ⟨⟨.any, [.byte 0]⟩, rfl, rfl⟩

/-- An address of a number. -/
def addressOfNumber : Tree :=
  ofEntries .distinct [(.root, .pointer), (⟨.any, [.byte 0]⟩, .integer)]

/-- An opaque value stands above an address of a number, but their meet only knows the address. So
the address of the number lies below both, and not below their meet. -/
theorem lattice_meet_loses_hidden :
    (scalar .anything).WellFormed ∧ addressOfNumber.WellFormed ∧
      ((lattice .distinct).leq addressOfNumber (scalar .anything) = true ∧
        (lattice .distinct).leq addressOfNumber addressOfNumber = true) ∧
      ∃ m, (lattice .distinct).meet (scalar .anything) addressOfNumber = .ok m ∧
        (lattice .distinct).leq addressOfNumber m = false :=
  ⟨wellFormed_normalize _ _, wellFormed_normalize _ _, by decide, _, rfl, by decide⟩

end Tree

end ByteLayout
