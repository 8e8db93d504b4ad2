import ByteLayout.Proofs.Bound
import ByteLayout.Proofs.EndlessLayouts

/-! # What the limit on the depth cuts off

A layout goes down to a depth. What it stores down to that depth is the same for every larger limit:
the marks of pointees that were cut off lie below the limit, and what fields, overlaps and
contradictions do there depends only on what lies above. A layout that cuts nothing off is the same
for every larger limit, and is also the one that comes out when cutting off is refused. Where a tree
reaches below the limit, it has a mark under an address at the limit, and such marks are what the
bound of the propagation lets pass. -/

namespace ByteLayout

/-- The depth of the end of an access chain. -/
theorem Path.depth_foldl_follow (start : Path) (chain : List Hop) :
    (chain.foldl follow start).depth = start.depth + chain.count .any := by
  induction chain generalizing start with
  | nil => simp
  | cons hop rest ih =>
    rw [List.foldl_cons, ih]
    cases hop with
    | any => simp; omega
    | byte n => simp

namespace Descriptor

variable {registry : Registry} {d : Descriptor} {start p q : Path} {tag : Tag}
  {limit limit' : Nat}

/-! ## Contributions above and below the limit -/

/-- Below the limit, only marks under addresses at the limit are contributed. -/
theorem ContributesFrom.shallow_or_mark
    (contributes : ContributesFrom limit registry start d p tag) :
    p.depth ≤ limit ∨ (tag = .anything ∧ ∃ q, p = q.append .any ∧ q.depth = limit ∧
      ContributesFrom limit registry start d q .pointer) := by
  obtain ⟨chain, node, way, deep, offers⟩ := contributes
  rw [← Path.depth_foldl_follow] at deep
  cases offers with
  | scalar => exact Or.inl deep
  | pointer => exact Or.inl deep
  | cut last =>
    rw [Path.depth_foldl_follow] at deep
    exact Or.inr ⟨rfl, _, rfl, last, chain, _, way, deep, .pointer⟩

/-- What is contributed above two limits is contributed under both. -/
theorem ContributesFrom.of_shallow (contributes : ContributesFrom limit registry start d p tag)
    (shallow : p.depth ≤ limit) (shallow' : p.depth ≤ limit') :
    ContributesFrom limit' registry start d p tag := by
  obtain ⟨chain, node, way, -, offers⟩ := contributes
  cases offers with
  | scalar known =>
    rw [Path.depth_foldl_follow] at shallow'
    exact ⟨chain, _, way, shallow', .scalar known⟩
  | pointer =>
    rw [Path.depth_foldl_follow] at shallow'
    exact ⟨chain, _, way, shallow', .pointer⟩
  | cut last =>
    rw [Path.depth_append] at shallow
    omega

theorem contributesFrom_iff_of_shallow (shallow : p.depth ≤ limit) (shallow' : p.depth ≤ limit') :
    ContributesFrom limit registry start d p tag ↔
      ContributesFrom limit' registry start d p tag :=
  ⟨fun contributes => contributes.of_shallow shallow shallow',
    fun contributes => contributes.of_shallow shallow' shallow⟩

/-- Nothing is contributed above the start. -/
theorem ContributesFrom.start_le (contributes : ContributesFrom limit registry start d p tag) :
    start.depth ≤ p.depth := by
  obtain ⟨chain, node, -, -, offers⟩ := contributes
  have along := Path.depth_foldl_follow start chain
  cases offers with
  | scalar => omega
  | pointer => omega
  | cut =>
    rw [Path.depth_append]
    omega

/-! ## What a layout stores -/

section Layouts

variable {options options' : Options} {l l' : Layout}

/-- The tree of a layout stores the joins of the contributions, except behind contradictions. -/
theorem layout_eq_paved (ok : d.layout options registry start = .ok l) :
    ∃ es, l.tree = .ofEntries options.policy es ∧ Tree.Paved es ∧
      ∀ p, Tag.IsJoin options.policy
        (ContributesFrom (max options.maxDepth start.depth) registry start d p)
        (Tree.listedTag options.policy es p) := by
  obtain ⟨es, tree, exact'⟩ := layout_from_eq_ok ok
  refine ⟨es, tree, ?_, fun p => (Tree.isJoin_listedTag _ es p).congr fun tag => exact' p tag⟩
  intro p q given tag member known member' known' above
  have atP := (exact' p given).mp ⟨member, known⟩
  have atQ := (exact' q tag).mp ⟨member', known'⟩
  -- A contribution lies no higher than the start, so whatever is on the way to one is an address.
  rcases atQ.pointer_of_isAncestorOf above with higher | pointer
  · have lower := atP.start_le
    have shorter := (Path.isAncestorOf_iff.mp higher).2.2
    exact absurd shorter (Nat.not_lt_of_le lower)
  · exact ((exact' p .pointer).mpr pointer).1

theorem layout_get?_eq_some_iff (ok : d.layout options registry start = .ok l) :
    l.tree.get? p = some tag ↔
      (Tag.IsJoin options.policy
          (ContributesFrom (max options.maxDepth start.depth) registry start d p) tag ∧
        tag ≠ .bottom) ∧
      ∀ q, q.isAncestorOf p = true → ¬ Tag.IsJoin options.policy
        (ContributesFrom (max options.maxDepth start.depth) registry start d q) .anything := by
  obtain ⟨es, tree, paved, joined⟩ := layout_eq_paved ok
  have same (q : Path) (tag : Tag) : Tree.listedTag options.policy es q = tag ↔
      Tag.IsJoin options.policy
        (ContributesFrom (max options.maxDepth start.depth) registry start d q) tag :=
    ⟨fun equal => equal ▸ joined q, (joined q).unique⟩
  rw [tree, paved.get?_ofEntries]
  simp only [Ne, same]

/-- Down to both limits, layouts with the same policy store the same. -/
theorem layout_get?_eq_of_shallow (ok : d.layout options registry start = .ok l)
    (ok' : d.layout options' registry start = .ok l') (policy : options.policy = options'.policy)
    (shallow : p.depth ≤ options.maxDepth) (shallow' : p.depth ≤ options'.maxDepth) :
    l.tree.get? p = l'.tree.get? p := by
  have joins (q : Path) (near : q.depth ≤ p.depth) (tag : Tag) :
      Tag.IsJoin options.policy
          (ContributesFrom (max options.maxDepth start.depth) registry start d q) tag ↔
        Tag.IsJoin options'.policy
          (ContributesFrom (max options'.maxDepth start.depth) registry start d q) tag := by
    have alike (given : Tag) :
        ContributesFrom (max options.maxDepth start.depth) registry start d q given ↔
          ContributesFrom (max options'.maxDepth start.depth) registry start d q given :=
      contributesFrom_iff_of_shallow (by omega) (by omega)
    rw [policy]
    exact ⟨fun joined => joined.congr alike,
      fun joined => joined.congr fun given => (alike given).symm⟩
  apply Option.ext
  intro tag
  rw [layout_get?_eq_some_iff ok, layout_get?_eq_some_iff ok', joins p (Nat.le_refl _)]
  refine and_congr_right fun _ => forall_congr' fun q => imp_congr_right fun above => ?_
  rw [joins q (Nat.le_of_lt (Path.isAncestorOf_iff.mp above).2.2)]

/-- What a layout from the root stores below the limit is a mark under a stored address. -/
theorem layout_mark_of_deep (ok : d.layout options registry .root = .ok l)
    (found : l.tree.get? p = some tag) (deep : options.maxDepth < p.depth) :
    tag = .anything ∧ ∃ q, p = q.append .any ∧ q.depth = options.maxDepth ∧
      l.tree.get? q = some .pointer := by
  have flat : max options.maxDepth Path.root.depth = options.maxDepth := Nat.max_zero _
  obtain ⟨⟨joined, known⟩, shown⟩ := (layout_get?_eq_some_iff ok).mp found
  obtain ⟨given, contributes, -⟩ := joined.ne_bottom_iff.mp known
  rcases contributes.shallow_or_mark with shallow | ⟨rfl, q, rfl, last, pointer⟩
  · rw [flat] at shallow
    omega
  · have mark := joined.below_iff.mp (Tag.below_refl _ tag) .anything contributes
    refine ⟨Tag.anything_below_iff.mp mark, q, rfl, last.trans flat, ?_⟩
    -- The address cannot be contradicted: its mark would be hidden then.
    obtain ⟨es, -, -, joinedAt⟩ := layout_eq_paved ok
    have upper := (joinedAt q).below_iff.mp (Tag.below_refl _ _) .pointer pointer
    rcases Tag.pointer_below_iff.mp upper with same | same
    · rw [layout_get?_eq_some_iff ok]
      refine ⟨⟨same ▸ joinedAt q, nofun⟩, fun r higher => ?_⟩
      exact shown r (Path.isAncestorOf_append_iff.mpr (Or.inr higher))
    · have contradicted := same ▸ joinedAt q
      exact absurd contradicted (shown q (Path.isAncestorOf_append_iff.mpr (Or.inl rfl)))

end Layouts

/-! ## Layouts that cut nothing off -/

section Runs

variable {options options' : Options} {frames : List Frame} {trail last : Trail}

/-- Taking a frame off either cuts an address off, which is not refused then, or goes the same way
under every larger limit. -/
theorem Frame.step_cases {f : Frame} {more : List Frame} {trail' : Trail}
    (stepped : f.step options registry trail = .ok (more, trail')) :
    (options.recursionLimitFatal = false ∧
        ∃ cut, trail'.truncations = trail.truncations ++ [cut]) ∨
      (trail'.truncations = trail.truncations ∧
        ∀ options' : Options, options.maxDepth ≤ options'.maxDepth →
          f.step options' registry trail = .ok (more, trail')) := by
  obtain ⟨node, path, opened⟩ := f
  cases node with
  | scalar tag size =>
    cases stepped
    exact Or.inr ⟨rfl, fun _ _ => rfl⟩
  | struct fields size name =>
    cases stepped
    exact Or.inr ⟨rfl, fun _ _ => rfl⟩
  | array element stride count =>
    cases stepped
    exact Or.inr ⟨rfl, fun _ _ => rfl⟩
  | foreign datum => cases stepped
  | ref name =>
    refine Or.inr ⟨?_, fun _ _ => stepped⟩
    simp only [step] at stepped
    split at stepped
    · cases stepped
    · split at stepped <;> cases stepped
      rfl
  | pointer pointee =>
    simp only [step] at stepped ⊢
    split at stepped
    · left
      unfold cutOff at stepped
      cases fatal : options.recursionLimitFatal with
      | true =>
        simp only [fatal, if_true, halt, Except.map] at stepped
        cases stepped
      | false =>
        simp only [fatal, Bool.false_eq_true, if_false, Except.map] at stepped
        cases stepped
        exact ⟨rfl, _, rfl⟩
    · cases stepped
      refine Or.inr ⟨rfl, fun options' deeper => ?_⟩
      rw [if_neg (by omega)]

/-- Work that comes to its end has cut some addresses off, none of them if that is refused. If there
are none, it goes the same way under every larger limit. -/
theorem Ends.cuts (ends : Ends options registry frames trail (.ok last)) :
    ∃ cuts, last.truncations = trail.truncations ++ cuts ∧
      (options.recursionLimitFatal = true → cuts = []) ∧
      (cuts = [] → ∀ options' : Options, options.maxDepth ≤ options'.maxDepth →
        Ends options' registry frames trail (.ok last)) := by
  generalize result : Except.ok last = answer at ends
  induction ends with
  | done =>
    cases result
    exact ⟨[], by simp, fun _ => rfl, fun _ _ _ => .done⟩
  | failed => cases result
  | next stepped later ih =>
    obtain ⟨cuts, total, refused, same⟩ := ih result
    rcases Frame.step_cases stepped with ⟨lenient, cut, more⟩ | ⟨none, onward⟩
    · refine ⟨cut :: cuts, ?_, ?_, nofun⟩
      · rw [total, more, List.append_assoc, List.singleton_append]
      · rw [lenient]
        exact nofun
    · refine ⟨cuts, none ▸ total, refused, fun free options' deeper => ?_⟩
      exact .next (onward options' deeper) (same free options' deeper)

theorem walk_cuts (ok : walk options registry (options.maxDepth - p.depth) p d {} = .ok last) :
    (options.recursionLimitFatal = true → last.truncations = []) ∧
      (last.truncations = [] → ∀ options' : Options, options.maxDepth ≤ options'.maxDepth →
        walk options' registry (options'.maxDepth - p.depth) p d {} = .ok last) := by
  have ends (options : Options) := (performs_walk options registry d p rfl).ends_iff {}
  obtain ⟨cuts, total, refused, same⟩ := ((ends options (.ok last)).mpr ok.symm).cuts
  rw [total]
  exact ⟨refused, fun free options' deeper =>
    ((ends options' (.ok last)).mp (same free options' deeper)).symm⟩

/-- A layout cuts nothing off if that is refused, and a layout that cuts nothing off is the one of
every larger limit. -/
theorem layout_cuts {l : Layout} (ok : d.layout options registry p = .ok l) :
    (options.recursionLimitFatal = true → l.truncations = []) ∧
      (l.truncations = [] → ∀ options' : Options, options.maxDepth ≤ options'.maxDepth →
        options.policy = options'.policy → d.layout options' registry p = .ok l) := by
  unfold layout at ok ⊢
  split at ok
  · cases ok
  · next trail walked =>
    cases ok
    obtain ⟨refused, same⟩ := walk_cuts walked
    refine ⟨refused, fun free options' deeper policy => ?_⟩
    simp only [same free options' deeper, policy]

end Runs

end Descriptor

namespace Builder

/-- The builder with another limit on the depth, which it takes as fatal or not. -/
def withLimit (b : Builder) (limit : Nat) (positive : 1 ≤ limit) (fatal : Bool) : Builder :=
  { b with options := { b.options with
      maxDepth := limit, maxDepth_pos := positive, recursionLimitFatal := fatal } }

variable {b b' : Builder} {current : Registry} {root : Path} {d : Descriptor}
  {l : Descriptor.Layout}

theorem build_eq_ok_iff : b.build current root d = .ok (l, b') ↔
    d.layout b.options (b.registry current) root = .ok l ∧
      b' = { b with report := l.truncations } := by
  unfold build
  cases d.layout b.options (b.registry current) root with
  | error failure => simp
  | ok layout =>
    simp only [Except.ok.injEq, Prod.mk.injEq]
    exact and_congr_right fun same => by rw [same, eq_comm]

/-- The limit on the depth decides only about what lies below it. Down to the smaller of two limits
the layouts agree, and a layout that cuts nothing off is also that of the larger limit. A limit that
is fatal lets exactly the layouts pass that cut nothing off. -/
theorem build_limit_cuts_below (b : Builder) (current : Registry) (root : Path) (d : Descriptor)
    {limit limit' : Nat} (positive : 1 ≤ limit) (deeper : limit ≤ limit') :
    (∀ l b₁, (b.withLimit limit positive false).build current root d = .ok (l, b₁) →
      (∀ l' b₂, (b.withLimit limit' (Nat.le_trans positive deeper) false).build current root d =
          .ok (l', b₂) → ∀ p, p.depth ≤ limit → l.tree.get? p = l'.tree.get? p) ∧
      (b₁.report = [] →
        ∃ b₂, (b.withLimit limit' (Nat.le_trans positive deeper) false).build current root d =
          .ok (l, b₂))) ∧
    ∀ l, (∃ b₁, (b.withLimit limit positive true).build current root d = .ok (l, b₁)) ↔
      ∃ b₁, (b.withLimit limit positive false).build current root d = .ok (l, b₁) ∧
        b₁.report = [] := by
  simp only [build_eq_ok_iff]
  refine ⟨?_, fun l => ⟨?_, ?_⟩⟩
  · rintro l b₁ ⟨laid, rfl⟩
    refine ⟨?_, fun free => ?_⟩
    · rintro l' b₂ ⟨laid', -⟩ p shallow
      have shallow' : p.depth ≤ limit' := Nat.le_trans shallow deeper
      exact Descriptor.layout_get?_eq_of_shallow laid laid' rfl shallow shallow'
    · exact ⟨_, (Descriptor.layout_cuts laid).2 free _ deeper rfl, rfl⟩
  · rintro ⟨b₁, laid, -⟩
    have free := (Descriptor.layout_cuts laid).1 rfl
    exact ⟨_, ⟨(Descriptor.layout_cuts laid).2 free _ (Nat.le_refl limit) rfl, rfl⟩, free⟩
  · rintro ⟨b₁, ⟨laid, rfl⟩, free⟩
    exact ⟨_, (Descriptor.layout_cuts laid).2 free _ (Nat.le_refl limit) rfl, rfl⟩

/-- An address of a node reaches below one dereference, so that the two limits differ there and the
smaller one may refuse it; an address of a number does not. -/
theorem build_limit_cuts_below_nodes :
    (∃ l l' b₁ b₂,
      (nodes.withLimit 1 (Nat.le_refl 1) false).build .empty .root (.pointer (.ref "node")) =
          .ok (l, b₁) ∧
        (nodes.withLimit 2 (Nat.le_succ 1) false).build .empty .root (.pointer (.ref "node")) =
          .ok (l', b₂) ∧
        (∀ p : Path, p.depth ≤ 1 → l.tree.get? p = l'.tree.get? p) ∧
        l.tree.get? ⟨.any, [.byte 0, .any]⟩ = some .anything ∧
        l'.tree.get? ⟨.any, [.byte 0, .any]⟩ = none ∧
        ¬ ∃ b₁, (nodes.withLimit 1 (Nat.le_refl 1) true).build .empty .root
          (.pointer (.ref "node")) = .ok (l, b₁)) ∧
      ∃ l b₁ b₂ b₃,
        (nodes.withLimit 1 (Nat.le_refl 1) false).build .empty .root
            (.pointer (.scalar .integer none)) = .ok (l, b₁) ∧
          (nodes.withLimit 2 (Nat.le_succ 1) false).build .empty .root
            (.pointer (.scalar .integer none)) = .ok (l, b₂) ∧
          (nodes.withLimit 1 (Nat.le_refl 1) true).build .empty .root
            (.pointer (.scalar .integer none)) = .ok (l, b₃) := by
  have node := build_limit_cuts_below nodes .empty .root (.pointer (.ref "node")) (Nat.le_refl 1)
    (Nat.le_succ 1)
  have number := build_limit_cuts_below nodes .empty .root (.pointer (.scalar .integer none))
    (Nat.le_refl 1) (Nat.le_succ 1)
  refine ⟨⟨_, _, _, _, rfl, rfl, (node.1 _ _ rfl).1 _ _ rfl, rfl, rfl, ?_⟩, ?_⟩
  · intro refused
    obtain ⟨b₁, built, free⟩ := (node.2 _).mp refused
    cases built
    cases free
  · obtain ⟨b₂, larger⟩ := (number.1 _ _ rfl).2 rfl
    obtain ⟨b₃, fatal⟩ := (number.2 _).mpr ⟨_, rfl, rfl⟩
    exact ⟨_, _, b₂, b₃, rfl, larger, fatal⟩

/-- The bound of the propagation lets every layout pass. What a layout stores below the limit are
marks, each under a stored address at the limit. -/
theorem build_within_limit (built : b.build current .root d = .ok (l, b')) :
    (l.tree.truncate b.options.maxDepth == l.tree) = true ∧
      ∀ p tag, l.tree.get? p = some tag → b.options.maxDepth < p.depth →
        tag = .anything ∧ p.depth = b.options.maxDepth + 1 ∧ p.last = .any ∧
          ∃ q, p = q.append .any ∧ q.depth = b.options.maxDepth ∧
            l.tree.get? q = some .pointer := by
  obtain ⟨laid, -⟩ := build_eq_ok_iff.mp built
  have marks (p : Path) (tag : Tag) (found : l.tree.get? p = some tag)
      (deep : b.options.maxDepth < p.depth) :
      tag = .anything ∧ p.depth = b.options.maxDepth + 1 ∧ p.last = .any ∧
        ∃ q, p = q.append .any ∧ q.depth = b.options.maxDepth ∧
          l.tree.get? q = some .pointer := by
    obtain ⟨rfl, q, rfl, last, pointer⟩ := Descriptor.layout_mark_of_deep laid found deep
    refine ⟨rfl, ?_, Path.last_append .., q, rfl, last, pointer⟩
    rw [Path.depth_append, last]
  refine ⟨?_, marks⟩
  rw [Tree.beq_iff]
  intro p
  apply Option.ext
  intro tag
  rw [Tree.get?_truncate_eq_some_iff, and_iff_left_iff_imp]
  intro found
  rcases Nat.lt_or_ge b.options.maxDepth p.depth with deep | shallow
  · obtain ⟨same, depth, last, -⟩ := marks p tag found deep
    exact Or.inr ⟨depth, last, same⟩
  · exact Or.inl shallow

/-- The next but one node of a chain of nodes is marked. -/
theorem build_within_limit_loops :
    ∃ l b', loops.build .empty .root (.ref "node") = .ok (l, b') ∧
      l.tree.get? ⟨.byte 16, [.byte 16, .any]⟩ = some .anything ∧
      (l.tree.truncate 1 == l.tree) = true ∧
      ∃ q : Path, ⟨.byte 16, [.byte 16, .any]⟩ = q.append .any ∧ q.depth = 1 ∧
        l.tree.get? q = some .pointer := by
  have marked : ∃ l b', loops.build .empty .root (.ref "node") = .ok (l, b') ∧
      l.tree.get? ⟨.byte 16, [.byte 16, .any]⟩ = some .anything := ⟨_, _, rfl, rfl⟩
  obtain ⟨l, b', built, mark⟩ := marked
  obtain ⟨same, marks⟩ := build_within_limit built
  obtain ⟨-, -, -, address⟩ := marks _ _ mark (Nat.le_refl 2)
  exact ⟨l, b', built, mark, same, address⟩

end Builder

end ByteLayout
