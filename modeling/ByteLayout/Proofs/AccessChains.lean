import ByteLayout.Descriptor.Builder
import ByteLayout.Proofs.TreeOfEntries
import ByteLayout.Proofs.WalkInduction

/-! # What a walk over a descriptor meets

An access chain leads from a descriptor to one of the nodes inside it. What a node adds to the tree
depends only on the path that its chain reaches. A walk that comes to its end has met exactly what
the nodes behind all chains within the allowed depth add, whatever the registry and however the
layouts share, overlap and refer to each other. -/

namespace ByteLayout

namespace Descriptor

/-- An access chain from a descriptor to a node. A field contributes its offset, the element of an
array that has any contributes zero, the pointee of an address contributes a dereference, and the
layout of a name contributes nothing. -/
inductive Chain (registry : Registry) : Descriptor → List Hop → Descriptor → Prop where
  | here (d : Descriptor) : Chain registry d [] d
  | field {fields : List (Nat × Descriptor)} {name : Option String} {size : Option Int}
      {f : Nat × Descriptor} {chain : List Hop} {node : Descriptor} (among : f ∈ fields)
      (onward : Chain registry f.2 chain node) :
      Chain registry (.struct fields name size) (.byte f.1 :: chain) node
  | element {element : Descriptor} {stride count : Nat} {chain : List Hop} {node : Descriptor}
      (any : 0 < count) (onward : Chain registry element chain node) :
      Chain registry (.array element stride count) (.byte 0 :: chain) node
  | pointee {pointee : Descriptor} {chain : List Hop} {node : Descriptor}
      (onward : Chain registry pointee chain node) :
      Chain registry (.pointer pointee) (.any :: chain) node
  | named {name : String} {d : Descriptor} {chain : List Hop} {node : Descriptor}
      (found : registry.get? name = some d) (onward : Chain registry d chain node) :
      Chain registry (.ref name) chain node

/-- What a node at a path adds to the tree: primitive bytes their kind, unless it is unknown, and an
address a pointer. The pointee of an address at the last depth is opaque. -/
inductive Offers (limit : Nat) : Descriptor → Path → Path → Tag → Prop where
  | scalar {tag : Tag} {size : Option Nat} {p : Path} (known : tag ≠ .bottom) :
      Offers limit (.scalar tag size) p p tag
  | pointer {pointee : Descriptor} {p : Path} : Offers limit (.pointer pointee) p p .pointer
  | cut {pointee : Descriptor} {p : Path} (last : p.depth = limit) :
      Offers limit (.pointer pointee) p (p.append .any) .anything

/-- What the nodes of a descriptor contribute that are reached with at most `limit` dereferences. -/
def Contributes (limit : Nat) (registry : Registry) (d : Descriptor) (p : Path) (tag : Tag) :
    Prop :=
  ∃ chain node, Chain registry d chain node ∧ chain.count .any ≤ limit ∧
    Offers limit node (.ofAccessChain chain) p tag

/-- What the nodes of a descriptor at the path `start` contribute down to the depth `limit`. -/
def ContributesFrom (limit : Nat) (registry : Registry) (start : Path) (d : Descriptor) (p : Path)
    (tag : Tag) : Prop :=
  ∃ chain node, Chain registry d chain node ∧ start.depth + chain.count .any ≤ limit ∧
    Offers limit node (chain.foldl Path.follow start) p tag

variable {limit : Nat} {registry : Registry} {start p q : Path} {tag : Tag} {d : Descriptor}

theorem contributes_iff :
    Contributes limit registry d p tag ↔ ContributesFrom limit registry .root d p tag := by
  have flat : Path.root.depth = 0 := rfl
  simp only [Contributes, ContributesFrom, flat, Nat.zero_add]
  rfl

/-! ## Contributions, constructor by constructor -/

theorem contributesFrom_scalar {kind : Tag} {size : Option Nat} (shallow : start.depth ≤ limit) :
    ContributesFrom limit registry start (.scalar kind size) p tag ↔
      Offers limit (.scalar kind size) start p tag := by
  constructor
  · rintro ⟨chain, node, way, -, offers⟩
    cases way
    exact offers
  · exact fun offers => ⟨[], _, .here _, shallow, offers⟩

theorem contributesFrom_struct {fields : List (Nat × Descriptor)} {name : Option String}
    {size : Option Int} :
    ContributesFrom limit registry start (.struct fields name size) p tag ↔
      ∃ f ∈ fields, ContributesFrom limit registry (start.shiftLast f.1) f.2 p tag := by
  constructor
  · rintro ⟨chain, node, way, deep, offers⟩
    cases way with
    | here => cases offers
    | field among onward => exact ⟨_, among, _, _, onward, by simpa using deep, offers⟩
  · rintro ⟨f, among, chain, node, onward, deep, offers⟩
    exact ⟨_, _, .field among onward, by simpa using deep, offers⟩

theorem contributesFrom_array {element : Descriptor} {stride count : Nat} :
    ContributesFrom limit registry start (.array element stride count) p tag ↔
      0 < count ∧ ContributesFrom limit registry (start.shiftLast 0) element p tag := by
  constructor
  · rintro ⟨chain, node, way, deep, offers⟩
    cases way with
    | here => cases offers
    | element any onward => exact ⟨any, _, _, onward, by simpa using deep, offers⟩
  · rintro ⟨any, chain, node, onward, deep, offers⟩
    exact ⟨_, _, .element any onward, by simpa using deep, offers⟩

theorem contributesFrom_pointer {pointee : Descriptor} (shallow : start.depth ≤ limit) :
    ContributesFrom limit registry start (.pointer pointee) p tag ↔
      Offers limit (.pointer pointee) start p tag ∨
        ContributesFrom limit registry (start.append (.byte 0)) pointee p tag := by
  constructor
  · rintro ⟨chain, node, way, deep, offers⟩
    cases way with
    | here => exact Or.inl offers
    | pointee onward =>
      refine Or.inr ⟨_, _, onward, ?_, offers⟩
      simp only [List.count_cons_self, Path.depth_append] at deep ⊢
      omega
  · rintro (offers | ⟨chain, node, onward, deep, offers⟩)
    · exact ⟨[], _, .here _, shallow, offers⟩
    · refine ⟨_, _, .pointee onward, ?_, offers⟩
      simp only [List.count_cons_self, Path.depth_append] at deep ⊢
      omega

theorem contributesFrom_ref {name : String} :
    ContributesFrom limit registry start (.ref name) p tag ↔
      ∃ d, registry.get? name = some d ∧ ContributesFrom limit registry start d p tag := by
  constructor
  · rintro ⟨chain, node, way, deep, offers⟩
    cases way with
    | here => cases offers
    | named found onward => exact ⟨_, found, _, _, onward, deep, offers⟩
  · rintro ⟨d, found, chain, node, onward, deep, offers⟩
    exact ⟨_, _, .named found onward, deep, offers⟩

theorem offers_pointer_iff {pointee : Descriptor} :
    Offers limit (.pointer pointee) p q tag ↔
      (q = p ∧ tag = .pointer) ∨ (p.depth = limit ∧ q = p.append .any ∧ tag = .anything) := by
  constructor
  · intro offers
    cases offers with
    | pointer => exact Or.inl ⟨rfl, rfl⟩
    | cut last => exact Or.inr ⟨last, rfl, rfl⟩
  · rintro (⟨rfl, rfl⟩ | ⟨last, rfl, rfl⟩)
    · exact .pointer
    · exact .cut last

/-- Nothing is contributed beyond the allowed depth. -/
theorem ContributesFrom.shallow (contributes : ContributesFrom limit registry start d p tag) :
    start.depth ≤ limit := by
  obtain ⟨chain, node, -, deep, -⟩ := contributes
  omega

/-- On the way from the start to a contribution, every path is that of an address. -/
theorem ContributesFrom.pointer_of_isAncestorOf
    (contributes : ContributesFrom limit registry start d q tag) (above : p.isAncestorOf q = true) :
    p.isAncestorOf start = true ∨ ContributesFrom limit registry start d p .pointer := by
  obtain ⟨chain, node, way, deep, offers⟩ := contributes
  -- Along the chain, only dereferences put new paths on the way, and each of them is of an address.
  induction way generalizing start with
  | here d =>
    cases offers with
    | scalar => exact Or.inl above
    | pointer => exact Or.inl above
    | cut =>
      rcases Path.isAncestorOf_append_iff.mp above with rfl | higher
      · exact Or.inr ⟨[], _, .here _, deep, .pointer⟩
      · exact Or.inl higher
  | field among onward ih =>
    rcases ih (by simpa using deep) offers with higher | contributes
    · exact Or.inl (Path.isAncestorOf_shiftLast_iff.mp higher)
    · exact Or.inr (contributesFrom_struct.mpr ⟨_, among, contributes⟩)
  | element any onward ih =>
    rcases ih (by simpa using deep) offers with higher | contributes
    · exact Or.inl (Path.isAncestorOf_shiftLast_iff.mp higher)
    · exact Or.inr (contributesFrom_array.mpr ⟨any, contributes⟩)
  | @pointee pointee chain node onward ih =>
    rw [contributesFrom_pointer (by omega)]
    have deeper : (start.follow .any).depth + chain.count .any ≤ limit := by
      rw [List.count_cons_self] at deep
      rw [Path.follow_any, Path.depth_append]
      omega
    rcases ih deeper offers with higher | contributes
    · rcases Path.isAncestorOf_append_iff.mp higher with rfl | higher
      · exact Or.inr (Or.inl .pointer)
      · exact Or.inl higher
    · exact Or.inr (Or.inr contributes)
  | named found onward ih =>
    rcases ih deep offers with higher | contributes
    · exact Or.inl higher
    · exact Or.inr (contributesFrom_ref.mpr ⟨_, found, contributes⟩)

theorem Contributes.pointer_of_isAncestorOf (contributes : Contributes limit registry d q tag)
    (above : p.isAncestorOf q = true) : Contributes limit registry d p .pointer := by
  rw [contributes_iff] at contributes ⊢
  exact (contributes.pointer_of_isAncestorOf above).resolve_left (Path.not_isAncestorOf_root p)

theorem ContributesFrom.known (contributes : ContributesFrom limit registry start d p tag) :
    tag ≠ .bottom := by
  obtain ⟨chain, node, -, -, offers⟩ := contributes
  cases offers with
  | scalar known => exact known
  | pointer => exact nofun
  | cut => exact nofun

theorem Contributes.known (contributes : Contributes limit registry d p tag) : tag ≠ .bottom :=
  (contributes_iff.mp contributes).known

/-! ## Walks -/

/-- Whenever a walk comes to its end, it has added exactly the known tags of `met`. -/
def Adds (walk : Walk) (met : Path → Tag → Prop) : Prop :=
  ∀ trail trail', walk trail = .ok trail' → ∃ new, trail'.entries = trail.entries ++ new ∧
    ∀ p tag, tag ≠ .bottom → ((p, tag) ∈ new ↔ met p tag)

section Adding

variable {walk after : Walk} {met met' : Path → Tag → Prop}

theorem Adds.congr (adds : Adds walk met) (same : ∀ p tag, met p tag ↔ met' p tag) :
    Adds walk met' := by
  intro trail trail' ok
  obtain ⟨new, entries, exact'⟩ := adds trail trail' ok
  exact ⟨new, entries, fun p tag known => (exact' p tag known).trans (same p tag)⟩

theorem adds_halt (stop : Stop) (met : Path → Tag → Prop) : Adds (halt stop) met := by
  intro trail trail' ok
  cases ok

theorem adds_nothing (nothing : ∀ p tag, ¬ met p tag) : Adds .ok met := by
  intro trail trail' ok
  cases ok
  exact ⟨[], by simp, fun p tag _ => by simp [nothing p tag]⟩

theorem Adds.andThen (adds : Adds walk met) (adds' : Adds after met') :
    Adds (walk.andThen after) fun p tag => met p tag ∨ met' p tag := by
  intro trail trail' ok
  unfold Walk.andThen at ok
  split at ok
  · cases ok
  · next between walked =>
    obtain ⟨new, entries, exact'⟩ := adds trail between walked
    obtain ⟨more, entries', exact''⟩ := adds' between trail' ok
    refine ⟨new ++ more, by rw [entries', entries, List.append_assoc], fun p tag known => ?_⟩
    rw [List.mem_append, exact' p tag known, exact'' p tag known]

theorem Adds.add (adds : Adds after met) (p : Path) (tag : Tag) :
    Adds (fun trail => after (trail.add p tag)) fun q given =>
      (q = p ∧ given = tag) ∨ met q given := by
  intro trail trail' ok
  obtain ⟨new, entries, exact'⟩ := adds _ trail' ok
  refine ⟨(p, tag) :: new, by simp [entries, Trail.add], fun q given known => ?_⟩
  rw [List.mem_cons, Prod.mk.injEq, exact' q given known]

theorem adds_cutOff (options : Options) (p : Path) :
    Adds (cutOff options p) fun q given => q = p.append .any ∧ given = .anything := by
  intro trail trail' ok
  unfold cutOff at ok
  dsimp only at ok
  split at ok
  · cases ok
  · cases ok
    exact ⟨[(p.append .any, .anything)], rfl, fun q given _ => by simp⟩

end Adding

/-- At one depth, a walk adds what is contributed if it does so at addresses. -/
theorem adds_steps {onPointer : Path → Descriptor → Walk} {depth : Nat} (shallow : depth ≤ limit)
    (pointers : ∀ p pointee, p.depth = depth →
      Adds (onPointer p pointee) (ContributesFrom limit registry p (.pointer pointee))) :
    WalkSteps registry onPointer
      (fun _ p d walk => p.depth = depth → Adds walk (ContributesFrom limit registry p d))
      (fun _ p fields walk => p.depth = depth → Adds walk fun q tag =>
        ∃ f ∈ fields, ContributesFrom limit registry (p.shiftLast f.1) f.2 q tag) where
  scalar _ p kind size level := by
    intro trail trail' ok
    cases ok
    refine ⟨[(p, kind)], rfl, fun q tag known => ?_⟩
    rw [contributesFrom_scalar (level ▸ shallow), List.mem_singleton, Prod.mk.injEq]
    constructor
    · rintro ⟨rfl, rfl⟩
      exact .scalar known
    · rintro ⟨⟩
      exact ⟨rfl, rfl⟩
  struct _ _ _ _ _ _ inner level := (inner level).congr fun _ _ => contributesFrom_struct.symm
  nil _ _ _ := adds_nothing fun _ _ => by simp
  cons _ _ _ _ _ _ _ first later level :=
    ((first (by simp [level])).andThen (later level)).congr fun _ _ => by simp
  element _ _ _ _ _ _ any inner level :=
    (inner (by simp [level])).congr fun _ _ => by rw [contributesFrom_array, and_iff_right any]
  hollow _ _ _ _ _ :=
    adds_nothing fun _ _ met => Nat.lt_irrefl 0 (contributesFrom_array.mp met).1
  pointer _ p pointee level := pointers p pointee level
  again _ _ _ _ _ := adds_halt _ _
  missing _ _ _ _ _ _ := adds_halt _ _
  named _ _ _ _ _ _ found inner level := (inner level).congr fun _ _ => by
    rw [contributesFrom_ref, found]
    simp
  foreign _ _ _ _ := adds_halt _ _

/-- A walk that comes to its end has added exactly what is contributed within the allowed depth. -/
theorem adds_walk (options : Options) (registry : Registry) {depths : Nat} (d : Descriptor)
    (p : Path) (level : p.depth + depths = limit) :
    Adds (walk options registry depths p d) (ContributesFrom limit registry p d) := by
  induction depths generalizing d p with
  | zero =>
    refine (adds_steps (by omega) fun q pointee deep => ?_).walkAmong (.nil registry) (by simp) d p
      rfl
    refine ((adds_cutOff options q).add q .pointer).congr fun r tag => ?_
    have last : q.depth = limit := by omega
    have outside : ¬ ContributesFrom limit registry (q.append (.byte 0)) pointee r tag := by
      intro contributes
      have deeper := contributes.shallow
      rw [Path.depth_append] at deeper
      omega
    rw [contributesFrom_pointer (by omega), offers_pointer_iff, or_iff_left outside,
      and_iff_right last]
  | succ depths ih =>
    refine (adds_steps (by omega) fun q pointee deep => ?_).walkAmong (.nil registry) (by simp) d p
      rfl
    have onward := ih pointee (q.append (.byte 0)) (by rw [Path.depth_append]; omega)
    refine (onward.add q .pointer).congr fun r tag => ?_
    have notLast : ¬ (q.depth = limit ∧ r = q.append .any ∧ tag = .anything) := by omega
    rw [contributesFrom_pointer (by omega), offers_pointer_iff, or_iff_left notLast]

/-! ## Layouts -/

/-- The tree of a descriptor is that of a list whose known entries are exactly the contributions. A
path that lies deeper than allowed itself still has its addresses met. -/
theorem layout_from_eq_ok {options : Options} {l : Layout}
    (ok : d.layout options registry start = .ok l) :
    ∃ es, l.tree = .ofEntries options.policy es ∧ ∀ p tag, (p, tag) ∈ es ∧ tag ≠ .bottom ↔
      ContributesFrom (max options.maxDepth start.depth) registry start d p tag := by
  unfold layout at ok
  split at ok
  · cases ok
  · next trail walked =>
    cases ok
    have level : start.depth + (options.maxDepth - start.depth) =
        max options.maxDepth start.depth := by omega
    obtain ⟨new, entries, exact'⟩ := adds_walk options registry d start level {} trail walked
    refine ⟨new, by rw [entries]; rfl, fun p tag => ?_⟩
    constructor
    · rintro ⟨member, known⟩
      exact (exact' p tag known).mp member
    · intro contributes
      exact ⟨(exact' p tag contributes.known).mpr contributes, contributes.known⟩

theorem layout_eq_ok {options : Options} {l : Layout}
    (ok : d.layout options registry .root = .ok l) :
    ∃ es, l.tree = .ofEntries options.policy es ∧ ∀ p tag,
      (p, tag) ∈ es ∧ tag ≠ .bottom ↔ d.Contributes options.maxDepth registry p tag := by
  obtain ⟨es, tree, exact'⟩ := layout_from_eq_ok ok
  have flat : max options.maxDepth Path.root.depth = options.maxDepth := Nat.max_zero _
  rw [flat] at exact'
  exact ⟨es, tree, fun p tag => (exact' p tag).trans contributes_iff.symm⟩

end Descriptor

namespace Builder

/-- Where a builder lays out a descriptor, the tree stores a path exactly when an access chain
within the allowed depth contributes to it and the contributions to no path on the way join to a
contradiction. It stores there the join of the contributions, whatever fields overlap and layouts
recur. -/
theorem build_stores_contributions {b b' : Builder} {current : Registry} {d : Descriptor}
    {l : Descriptor.Layout} (built : b.build current .root d = .ok (l, b')) (p : Path) :
    ((l.tree.get? p).isSome = true ↔
      (∃ tag, d.Contributes b.options.maxDepth (b.registry current) p tag) ∧
        ∀ q, q.isAncestorOf p = true → ¬ Tag.IsJoin b.options.policy
          (d.Contributes b.options.maxDepth (b.registry current) q) .anything) ∧
    ∀ tag, l.tree.get? p = some tag → Tag.IsJoin b.options.policy
      (d.Contributes b.options.maxDepth (b.registry current) p) tag := by
  unfold build at built
  split at built
  · cases built
  · next laid =>
    cases built
    obtain ⟨es, tree, exact'⟩ := Descriptor.layout_eq_ok laid
    -- Every path on the way to a contribution is that of an address, so nothing is promoted.
    have grounded : Tree.Grounded es := by
      intro p q tag member known above
      have contributes := (exact' q tag).mp ⟨member, known⟩
      exact ((exact' p .pointer).mpr (contributes.pointer_of_isAncestorOf above)).1
    have joined (q : Path) : Tag.IsJoin b.options.policy
        (d.Contributes b.options.maxDepth (b.registry current) q)
        (Tree.listedTag b.options.policy es q) :=
      ⟨Tree.tagsAt es q, fun tag => Tree.mem_tagsAt.trans (exact' q tag), rfl⟩
    rw [tree, Option.isSome_iff_exists]
    simp only [grounded.get?_ofEntries]
    constructor
    · constructor
      · rintro ⟨tag, ⟨rfl, known⟩, shown⟩
        obtain ⟨given, contributes, -⟩ := (joined p).ne_bottom_iff.mp known
        exact ⟨⟨given, contributes⟩, fun q above top => shown q above ((joined q).unique top)⟩
      · rintro ⟨⟨given, contributes⟩, shown⟩
        have known := (joined p).ne_bottom_iff.mpr ⟨given, contributes, contributes.known⟩
        exact ⟨_, ⟨rfl, known⟩, fun q above top => shown q above (top ▸ joined q)⟩
    · rintro tag ⟨⟨rfl, -⟩, -⟩
      exact joined p

/-- A builder for nodes that start with an integer or an address and go on with a number in the
place of the address of the next node. -/
def nodes : Builder where
  options :=
    { (default : Options) with maxDepth := 2, maxDepth_pos := Nat.le_succ 1, policy := .unified }
  names := .own (.ofList [("node", .struct
    [(0, .scalar .integer none), (0, .pointer (.scalar (.float .double) none)),
      (8, .pointer (.ref "node")), (8, .scalar (.float .half) none)] none none)])

/-- An integer is reconciled with the address in its place, and what lies behind the address is
stored; a number is not. -/
theorem build_stores_contributions_nodes :
    ∃ l b', nodes.build .empty .root (.pointer (.ref "node")) = .ok (l, b') ∧
      ((∃ tag, Descriptor.Contributes 2 (nodes.registry .empty) (.pointer (.ref "node"))
          ⟨.any, [.byte 0, .byte 0]⟩ tag) ∧
        ∀ q, q.isAncestorOf ⟨.any, [.byte 0, .byte 0]⟩ = true → ¬ Tag.IsJoin .unified
          (Descriptor.Contributes 2 (nodes.registry .empty) (.pointer (.ref "node")) q) .anything) ∧
      Tag.IsJoin .unified (Descriptor.Contributes 2 (nodes.registry .empty)
        (.pointer (.ref "node")) ⟨.any, [.byte 8]⟩) .anything :=
  ⟨_, _, rfl, (build_stores_contributions rfl _).1.mp rfl,
    (build_stores_contributions rfl _).2 _ rfl⟩

end Builder

end ByteLayout
