import ByteLayout.Proofs.Equation

/-! # What the unified policy spares

Under the unified policy an integer that meets a pointer becomes one, and an integer with something
behind it becomes a pointer that keeps what lies there. Under the distinct policy both are
contradictions, which drop whatever lies behind them, so joins of the same trees may store quite
different paths. They are compared through a third tree: a well-formed tree that covers everything
that is joined, with integers and pointers distinct, covers what either policy makes of it. -/

namespace ByteLayout

/-- A join says most when integers and pointers are distinct. -/
theorem Tag.join_below_join_distinct (policy : Policy) (a b : Tag) :
    Below .distinct (a.join policy b) (a.join .distinct b) := by
  by_cases unknownA : a = .bottom
  · simp [join, unknownA, below_refl]
  · by_cases unknownB : b = .bottom
    · simp [join, unknownA, unknownB, below_refl]
    · by_cases same : a = b
      · simp [join, same, below_refl]
      · have clash : a.join .distinct b = .anything := by
          simp [join, unknownA, unknownB, same]
        rw [clash]
        exact below_anything _ _

namespace Tree

variable {a b t : Tree} {p : Path} {tag : Tag} {m : OrderedMap Path Tag}

/-! ## The steps of a join -/

theorem tag_addTag_below_distinct (policy : Policy) (m : OrderedMap Path Tag) (p : Path) (tag : Tag)
    (q : Path) :
    ((mk (addTag policy m p tag)).tag q).Below .distinct ((mk (addTag .distinct m p tag)).tag q) := by
  rw [tag_addTag, tag_addTag]
  split
  · exact Tag.join_below_join_distinct policy _ _
  · exact Tag.below_refl _ _

theorem tag_promote_below_distinct (policy : Policy) (m : OrderedMap Path Tag) (p : Path) :
    ((mk (promote policy m)).tag p).Below .distinct ((mk (promote .distinct m)).tag p) := by
  rw [tag_promote, tag_promote]
  split
  · exact Tag.join_below_join_distinct policy _ _
  · exact Tag.below_refl _ _

theorem addTag_below_of_distinct (policy : Policy) (below : (mk m).Below .distinct t)
    (covered : t.Covers .distinct p tag) : (mk (addTag policy m p tag)).Below .distinct t := by
  intro q
  have joined := addTag_below_iff.mpr ⟨below, covered⟩ q
  exact joined.of_below (tag_addTag_below_distinct policy m p tag q)

theorem addAll_below_of_distinct (policy : Policy) {es : List (Path × Tag)}
    (below : (mk m).Below .distinct t) (covered : ∀ e ∈ es, t.Covers .distinct e.1 e.2) :
    (mk (addAll policy m es)).Below .distinct t := by
  induction es generalizing m with
  | nil => exact below
  | cons e rest ih =>
    rw [List.forall_mem_cons] at covered
    exact ih (addTag_below_of_distinct policy below covered.1) covered.2

theorem normalize_below_of_distinct (policy : Policy) (wf : t.WellFormed)
    (below : (mk m).Below .distinct t) : (normalize policy m).Below .distinct t := by
  intro p
  rw [tag_normalize]
  split
  · exact covers_bottom _ t p
  · exact (covers_promote wf below p).of_below (tag_promote_below_distinct policy (known m) p)

/-! ## Joins -/

theorem merge_below_of_distinct (policy : Policy) (wf : t.WellFormed)
    (belowA : a.Below .distinct t) (belowB : b.Below .distinct t) :
    (a.merge policy b).Below .distinct t := by
  apply normalize_below_of_distinct policy wf
  exact addAll_below_of_distinct policy belowA (covers_entries_iff.mpr belowB)

theorem foldl_merge_below_of_distinct (policy : Policy) (wf : t.WellFormed) {ts : List Tree}
    {start : Tree} (below : start.Below .distinct t) (all : ∀ x ∈ ts, x.Below .distinct t) :
    (ts.foldl (merge policy) start).Below .distinct t := by
  induction ts generalizing start with
  | nil => exact below
  | cons x rest ih =>
    rw [List.forall_mem_cons] at all
    exact ih (merge_below_of_distinct policy wf below all.1) all.2

/-- Letting integers carry addresses only ever makes joins more precise. The join of finitely many
trees under the unified policy lies above each of them in the order of that policy, and in the order
in which integers and pointers are distinct it lies below their join under the distinct policy. -/
theorem mergeAll_unified_leq_distinct (ts : List Tree) :
    (∀ t ∈ ts, (lattice .unified).leq t (mergeAll .unified ts) = true) ∧
      (lattice .distinct).leq (mergeAll .unified ts) (mergeAll .distinct ts) = true := by
  have formed (policy : Policy) : (mergeAll policy ts).WellFormed :=
    wellFormed_foldl_merge policy ts wellFormed_empty
  constructor
  · intro t member
    exact (leq_iff (formed .unified)).mpr (below_joinAll .unified member)
  · apply (leq_iff (formed .distinct)).mpr
    exact foldl_merge_below_of_distinct .unified (formed .distinct) (empty_below _ _)
      fun x member => below_joinAll .distinct member

/-- A number, an address with another one behind it that leads to a float, and an address. -/
def numberAndAddresses : List Tree := [
  scalar .integer,
  ofEntries .distinct [(⟨.any, [.byte 0]⟩, .pointer), (⟨.any, [.byte 0, .byte 8]⟩, .float .double)],
  scalar .pointer]

/-- With the policy, the number becomes an address and all that lies behind it is kept; without it,
nothing but a contradiction is left. -/
theorem mergeAll_unified_leq_distinct_addresses :
    scalar .integer ∈ numberAndAddresses ∧
      (lattice .unified).leq (scalar .integer) (mergeAll .unified numberAndAddresses) = true ∧
      (lattice .distinct).leq (mergeAll .unified numberAndAddresses)
        (mergeAll .distinct numberAndAddresses) = true ∧
      (mergeAll .unified numberAndAddresses).entries = [(.root, .pointer),
        (⟨.any, [.byte 0]⟩, .pointer), (⟨.any, [.byte 0, .byte 8]⟩, .float .double)] ∧
      (mergeAll .distinct numberAndAddresses).entries = [(.root, .anything)] := by
  obtain ⟨upper, precise⟩ := mergeAll_unified_leq_distinct numberAndAddresses
  have member : scalar .integer ∈ numberAndAddresses := List.mem_cons_self
  exact ⟨member, upper _ member, precise, by decide, by decide⟩

end Tree

end ByteLayout
