import ByteLayout.Proofs.AcceptedText
import ByteLayout.Proofs.Equation
import ByteLayout.Proofs.TreeOfEntries
import ByteLayout.Tree.Cell

/-! # Filling a tree step by step

Entries can be put into a tree one after the other, or as trees of some of them that are joined, or
all at once with the tags of each path joined beforehand. On the way a scalar may turn into a pointer
or a contradiction, and what comes to lie behind a contradiction is dropped. None of this loses
anything that a later entry could need: however the entries are ordered and grouped, the tree that
comes out is the least well-formed one that covers them. -/

namespace ByteLayout

namespace Tree

variable {policy : Policy} {t : Tree} {p : Path} {tag : Tag} {es : List (Path × Tag)}

/-! ## One entry -/

/-- The policy plays no part in the tree of a single entry. -/
theorem ofEntries_singleton_beq (policy policy' : Policy) (p : Path) (tag : Tag) :
    (ofEntries policy [(p, tag)] == ofEntries policy' [(p, tag)]) = true := by
  by_cases unknown : tag = .bottom
  · rw [beq_iff]
    intro q
    simp [ofEntries, addAll, addTag, unknown, get?_normalize, get?_promote, known]
  · have formed : Formed [(p, tag)] := .singleton p unknown
    rw [beq_iff]
    intro q
    apply Option.ext
    intro other
    rw [formed.get?_ofEntries_eq_some_iff, formed.get?_ofEntries_eq_some_iff]

theorem ofEntries_singleton_below_iff (policy' : Policy) (wf : t.WellFormed) :
    (ofEntries policy' [(p, tag)]).Below policy t ↔ t.Covers policy p tag := by
  have own : (ofEntries policy [(p, tag)]).Below policy t ↔ t.Covers policy p tag := by
    rw [ofEntries_below_iff wf, List.forall_mem_singleton]
  rw [← own]
  constructor
  · exact (below_of_beq policy (ofEntries_singleton_beq policy policy' p tag)).trans
  · exact (below_of_beq policy (ofEntries_singleton_beq policy' policy p tag)).trans

/-! ## Trees of some entries -/

/-- The join of the trees of groups of entries is the least well-formed tree that covers them all. -/
theorem mergeAll_ofEntries_below_iff (wf : t.WellFormed) (groups : List (List (Path × Tag))) :
    (mergeAll policy (groups.map (ofEntries policy))).Below policy t ↔
      ∀ e ∈ groups.flatten, t.Covers policy e.1 e.2 := by
  rw [mergeAll, foldl_merge_below_iff wf, and_iff_right (empty_below policy t)]
  simp only [List.forall_mem_map, ofEntries_below_iff wf, List.mem_flatten]
  constructor
  · rintro covered e ⟨group, among, member⟩
    exact covered group among e member
  · intro covered group among e member
    exact covered e ⟨group, among, member⟩

/-! ## Tags joined beforehand -/

/-- The paths of a list of entries, each once, with the join of the tags that are listed for it. -/
def pointwise (policy : Policy) (es : List (Path × Tag)) : List (Path × Tag) :=
  (es.map Prod.fst).eraseDups.map fun p => (p, listedTag policy es p)

theorem covers_listedTag_iff :
    t.Covers policy p (listedTag policy es p) ↔ ∀ tag, (p, tag) ∈ es → t.Covers policy p tag := by
  unfold Covers
  rw [(isJoin_listedTag policy es p).below_iff]
  constructor
  · rintro (hidden | below) tag member
    · exact Or.inl hidden
    · by_cases unknown : tag = .bottom
      · exact unknown ▸ covers_bottom policy t p
      · exact Or.inr (below tag ⟨member, unknown⟩)
  · intro covered
    by_cases hidden : t.Hides p
    · exact Or.inl hidden
    · right
      rintro tag ⟨member, -⟩
      exact (covered tag member).resolve_left hidden

/-- Joining the tags of each path first changes nothing about what has to be covered. -/
theorem ofEntries_pointwise_below_iff (wf : t.WellFormed) :
    (ofEntries policy (pointwise policy es)).Below policy t ↔
      ∀ e ∈ es, t.Covers policy e.1 e.2 := by
  rw [ofEntries_below_iff wf]
  simp only [pointwise, List.forall_mem_map, List.mem_eraseDups, covers_listedTag_iff]
  constructor
  · intro covered e member
    exact covered e member e.2 member
  · rintro covered e - tag member
    exact covered (e.1, tag) member

end Tree

namespace Cell

/-! ## Cells -/

variable {policy : Policy} {c filled : Cell} {t other : Tree} {changed : Bool}

/-- A tree was joined into an open cell. The call tells of a change exactly when the cell holds
another tree than before, which is exactly when the joined one did not lie below the old one in the
order of the policy. -/
structure Took (policy : Policy) (c : Cell) (other : Tree) (changed : Bool) (filled : Cell) :
    Prop where
  unfrozen : filled.frozen = false
  joined : (filled.tree == c.tree.merge policy other) = true
  told : changed = true ↔ (filled.tree == c.tree) = false
  needed : changed = true ↔ (Tree.lattice policy).leq other c.tree = false

/-- An open cell takes every tree. -/
theorem exists_took_mergeIn (unfrozen : c.frozen = false) (policy : Policy) (other : Tree) :
    ∃ changed filled, c.mergeIn policy other = .ok (changed, filled) ∧
      Took policy c other changed filled := by
  have itself : (c.tree == c.tree) = true := Tree.beq_iff.mpr fun _ => rfl
  have order := Tree.lattice_leq_eq_merge_beq policy other c.tree
  rw [mergeIn, unfrozen, if_neg Bool.false_ne_true]
  dsimp only
  cases same : c.tree.merge policy other == c.tree with
  | true =>
    rw [same] at order
    refine ⟨false, c, rfl, unfrozen, Tree.beq_symm same, ?_, ?_⟩
    · simp [itself]
    · simp [order]
  | false =>
    rw [same] at order
    refine ⟨true, ⟨c.tree.merge policy other, false⟩, rfl, rfl, ?_, ?_, ?_⟩
    · exact Tree.beq_iff.mpr fun _ => rfl
    · simp [same]
    · simp [order]

theorem Took.wellFormed (took : Took policy c other changed filled) : filled.tree.WellFormed :=
  Tree.wellFormed_of_beq (Tree.beq_symm took.joined) (Tree.wellFormed_merge policy _ _)

/-- The cell that has taken a tree covers that tree, what it covered before and no more than it must. -/
theorem Took.below_iff (took : Took policy c other changed filled) (wf : t.WellFormed) :
    filled.tree.Below policy t ↔ c.tree.Below policy t ∧ other.Below policy t := by
  rw [← Tree.merge_below_iff wf]
  exact ⟨(Tree.below_of_beq policy (Tree.beq_symm took.joined)).trans,
    (Tree.below_of_beq policy took.joined).trans⟩

/-- Joins entries, one after the other, into a cell. -/
def insertAll (policy : Policy) (c : Cell) (es : List (Path × Tag)) : Except Fault Cell :=
  es.foldlM (fun c e => (c.insert policy (Path.data e.1.hops) e.2).map Prod.snd) c

theorem insert_eq_mergeIn (policy : Policy) (c : Cell) (p : Path) (tag : Tag) :
    c.insert policy (Path.data p.hops) tag =
      c.mergeIn policy (.ofEntries .distinct [(p, tag)]) := by
  have read : Path.ofData (Path.data p.hops) = .ok p := Path.ofData_eq_ok_iff.mpr rfl
  unfold insert
  rw [read]
  unfold mergeIn
  split <;> rfl

/-- A cell can be filled further, and its tree is well-formed. -/
structure Open (c : Cell) : Prop where
  unfrozen : c.frozen = false
  wellFormed : c.tree.WellFormed

/-- An open cell takes an entry: afterwards it covers that entry, what it covered before and no more
than it must. -/
theorem Open.insert (opened : c.Open) (policy : Policy) (p : Path) (tag : Tag) :
    ∃ filled, c.insert policy (Path.data p.hops) tag = .ok filled ∧ filled.2.Open ∧
      ∀ t : Tree, t.WellFormed → (filled.2.tree.Below policy t ↔
        c.tree.Below policy t ∧ t.Covers policy p tag) := by
  obtain ⟨changed, filled, done, took⟩ :=
    exists_took_mergeIn opened.unfrozen policy (.ofEntries .distinct [(p, tag)])
  refine ⟨(changed, filled), ?_, ⟨took.unfrozen, took.wellFormed⟩, fun t wf => ?_⟩
  · rw [insert_eq_mergeIn, done]
  · rw [took.below_iff wf, Tree.ofEntries_singleton_below_iff .distinct wf]

/-- Entries that are put into an open cell one after the other are covered afterwards, and nothing
else is added. -/
theorem Open.insertAll (opened : c.Open) (policy : Policy) (es : List (Path × Tag)) :
    ∃ c', c.insertAll policy es = .ok c' ∧ c'.Open ∧
      ∀ t : Tree, t.WellFormed → (c'.tree.Below policy t ↔
        c.tree.Below policy t ∧ ∀ e ∈ es, t.Covers policy e.1 e.2) := by
  induction es generalizing c with
  | nil => exact ⟨c, rfl, opened, fun t _ => by simp⟩
  | cons e rest ih =>
    obtain ⟨filled, took, openedThen, one⟩ := opened.insert policy e.1 e.2
    obtain ⟨c', later, openedLast, others⟩ := ih openedThen
    refine ⟨c', ?_, openedLast, fun t wf => ?_⟩
    · rw [Cell.insertAll, List.foldlM_cons, took]
      exact later
    · rw [others t wf, one t wf, List.forall_mem_cons, and_assoc]

end Cell

namespace Tree

/-- However entries are ordered, putting them into an empty tree one by one and joining the trees of
groups of them yield the tree in which the tags of each path were joined beforehand. Paths may be
repeated, tags may be unknown, and entries may lie behind scalars and contradictions. -/
theorem gradual_beq_pointwise (policy : Policy) {es order : List (Path × Tag)}
    {groups : List (List (Path × Tag))} (reordered : order.Perm es)
    (cut : groups.flatten = order) :
    (∃ c, Cell.insertAll policy { tree := empty } order = .ok c ∧
      (c.tree == ofEntries policy (pointwise policy es)) = true) ∧
    (mergeAll policy (groups.map (ofEntries policy)) ==
      ofEntries policy (pointwise policy es)) = true := by
  have listed (t : Tree) : (∀ e ∈ order, t.Covers policy e.1 e.2) ↔
      ∀ e ∈ es, t.Covers policy e.1 e.2 :=
    forall_congr' fun e => by rw [reordered.mem_iff]
  have wellFormed : (ofEntries policy (pointwise policy es)).WellFormed := wellFormed_normalize _ _
  constructor
  · obtain ⟨c, filled, opened, least⟩ :=
      Cell.Open.insertAll (c := { tree := empty }) ⟨rfl, wellFormed_empty⟩ policy order
    refine ⟨c, filled, beq_of_below_iff policy opened.wellFormed wellFormed fun t wf => ?_⟩
    rw [least t wf, and_iff_right (empty_below policy t), listed,
      ofEntries_pointwise_below_iff wf]
  · have joined : (mergeAll policy (groups.map (ofEntries policy))).WellFormed :=
      wellFormed_foldl_merge policy _ wellFormed_empty
    refine beq_of_below_iff policy joined wellFormed fun t wf => ?_
    rw [mergeAll_ofEntries_below_iff wf, cut, listed, ofEntries_pointwise_below_iff wf]

/-- An integer with something behind it that is a number and an address at once and has an integer
behind it in turn. One path is listed with two tags, one with the same tag twice and one without
anything being known. -/
def tangled : List (Path × Tag) := [
  (⟨.any, [.byte 0, .byte 8]⟩, .integer), (⟨.any, [.byte 0]⟩, .float .double), (.root, .integer),
  (⟨.any, [.byte 4]⟩, .bottom), (⟨.any, [.byte 0]⟩, .pointer), (.root, .integer)]

/-- The tangled entries from last to first, singly and in three groups. The integer ends as a pointer
to a contradiction. -/
theorem gradual_beq_pointwise_tangled :
    tangled.reverse.Perm tangled ∧
      [tangled.reverse.take 2, [], tangled.reverse.drop 2].flatten = tangled.reverse ∧
      (∃ c, Cell.insertAll .unified { tree := empty } tangled.reverse = .ok c ∧
        (c.tree == ofEntries .unified (pointwise .unified tangled)) = true) ∧
      (mergeAll .unified ([tangled.reverse.take 2, [], tangled.reverse.drop 2].map
        (ofEntries .unified)) == ofEntries .unified (pointwise .unified tangled)) = true ∧
      (ofEntries .unified (pointwise .unified tangled)).entries =
        [(⟨.any, [.byte 0]⟩, .anything), (.root, .pointer)] := by
  obtain ⟨singly, grouped⟩ := gradual_beq_pointwise .unified (List.reverse_perm tangled)
    (rfl : [tangled.reverse.take 2, [], tangled.reverse.drop 2].flatten = tangled.reverse)
  exact ⟨List.reverse_perm _, rfl, singly, grouped, by decide⟩

end Tree

end ByteLayout
