import ByteLayout.Proofs.FormedEntries
import ByteLayout.Propagation.Transfer

/-! # When knowing more yields more

Loads, stores and moves of pointers change the first hops of trees. Where they lose nothing, they
respect the order of trees. They lose something in three cases. What lies behind a pointer is lost
when the pointer turns out to be opaque. The value of a load is another one when more than byte zero
of what is loaded becomes known. And where entries under the wildcard and under byte zero come to
stand at the same path, an integer and a pointer among them contradict each other even under the
policy that reconciles them. A tree in which none of this is the case is steady: what is made of it
is at least what is made of any tree below it. -/

namespace ByteLayout

namespace Tree

variable {policy : Policy} {a b t x : Tree} {p q : Path} {tag : Tag} {hop : Hop} {size : Nat}

/-! ## First hops -/

/-- Whether an entry starts with a given hop. -/
def startsAt (t : Tree) (hop : Hop) : Bool := t.entries.any fun e => e.1.first = hop

/-- Whether an entry starts at one of the first `size` bytes, but not at byte zero. -/
def startsInside (t : Tree) (size : Nat) : Bool :=
  t.entries.any fun e =>
    match e.1.first with
    | .any => false
    | .byte k => 0 < k && k < size

theorem startsAt_iff : t.startsAt hop = true ↔ ∃ p tag, t.get? p = some tag ∧ p.first = hop := by
  simp only [startsAt, List.any_eq_true, decide_eq_true_eq]
  constructor
  · intro h
    obtain ⟨⟨p, tag⟩, member, first⟩ := h
    exact ⟨p, tag, mem_entries_iff.mp member, first⟩
  · intro h
    obtain ⟨p, tag, found, first⟩ := h
    exact ⟨(p, tag), mem_entries_iff.mpr found, first⟩

theorem startsInside_iff :
    t.startsInside size = true ↔ ∃ k, 0 < k ∧ k < size ∧ t.startsAt (.byte k) = true := by
  simp only [startsInside, List.any_eq_true, startsAt_iff]
  constructor
  · intro h
    obtain ⟨⟨p, tag⟩, member, inside⟩ := h
    cases first : p.first with
    | any => simp [first] at inside
    | byte k =>
      simp only [first, Bool.and_eq_true, decide_eq_true_eq] at inside
      exact ⟨k, inside.1, inside.2, p, tag, mem_entries_iff.mp member, first⟩
  · intro h
    obtain ⟨k, later, inside, p, tag, found, first⟩ := h
    exact ⟨(p, tag), mem_entries_iff.mpr found, by simp [first, later, inside]⟩

/-- A tree below another one has no other first hops. -/
theorem startsAt_of_below (wf : a.WellFormed) (below : a.Below policy b)
    (starts : a.startsAt hop = true) : b.startsAt hop = true := by
  rw [startsAt_iff] at *
  obtain ⟨p, tag, found, first⟩ := starts
  have covered := below p
  rw [tag_of_get? found] at covered
  rcases covered with hidden | stored
  · obtain ⟨r, above, hides⟩ := hidden
    exact ⟨r, .anything, hides, (Path.isAncestorOf_iff.mp above).1.trans first⟩
  · have known : b.tag p ≠ .bottom := stored.ne_bottom (wf.ne_bottom found)
    exact ⟨p, b.tag p, get?_of_tag_ne_bottom known, first⟩

/-! ## Moving entries -/

section Moving

variable {move : Path → Option Path}

/-- The entries of a tree at their new places. -/
def movedEntries (move : Path → Option Path) (t : Tree) : List (Path × Tag) :=
  t.entries.filterMap fun e => (move e.1).map fun p => (p, e.2)

theorem mem_movedEntries_iff :
    (q, tag) ∈ t.movedEntries move ↔ ∃ p, t.get? p = some tag ∧ move p = some q := by
  simp only [movedEntries, List.mem_filterMap, Option.map_eq_some_iff]
  constructor
  · intro h
    obtain ⟨⟨p, other⟩, member, r, placed, same⟩ := h
    cases same
    exact ⟨p, mem_entries_iff.mp member, placed⟩
  · intro h
    obtain ⟨p, found, placed⟩ := h
    exact ⟨(p, tag), mem_entries_iff.mpr found, q, placed, rfl⟩

/-- An opaque entry is moved along with whatever would lie behind it. -/
def Tracks (move : Path → Option Path) (t : Tree) : Prop :=
  ∀ p q r, move p = some q → r.isAncestorOf p = true → t.get? r = some .anything →
    ∃ r', move r = some r' ∧ r'.isAncestorOf q = true

/-- No two entries are moved to the same place, and none before another one unless it was there. -/
def Faithful (move : Path → Option Path) (t : Tree) : Prop :=
  ∀ p p' q q', (t.get? p).isSome = true → (t.get? p').isSome = true → move p = some q →
    move p' = some q' → (q = q' → p = p') ∧ (q.isAncestorOf q' = true → p.isAncestorOf p' = true)

theorem Faithful.formed (faithful : Faithful move t) (wf : t.WellFormed) :
    Formed (t.movedEntries move) := by
  have stored {e : Path × Tag} (member : e ∈ t.entries) : t.get? e.1 = some e.2 :=
    mem_entries_iff.mp member
  constructor
  · rw [List.Nodup, List.pairwise_map, movedEntries, List.pairwise_filterMap]
    refine (List.pairwise_map.mp t.map.nodup).imp_of_mem ?_
    intro e e' member member' different x placed x' placed' same
    obtain ⟨q, moved, rfl⟩ := Option.map_eq_some_iff.mp placed
    obtain ⟨q', moved', rfl⟩ := Option.map_eq_some_iff.mp placed'
    exact different ((faithful _ _ q q' (by simp [stored member]) (by simp [stored member']) moved
      moved').1 same)
  · intro e member
    obtain ⟨p, found, -⟩ := mem_movedEntries_iff.mp member
    exact wf.ne_bottom found
  · intro e member e' member' above
    obtain ⟨p, found, placed⟩ := mem_movedEntries_iff.mp member
    obtain ⟨p', found', placed'⟩ := mem_movedEntries_iff.mp member'
    have above' := (faithful p p' _ _ (by simp [found]) (by simp [found']) placed placed').2 above
    exact wf.pointers p p' e.2 above' found (by simp [found'])

theorem covers_moved (policy : Policy) (found : t.get? p = some tag) (placed : move p = some q) :
    (t.moved move).Covers policy q tag := by
  have whole : (ofEntries .distinct (t.movedEntries move)).Below .distinct (t.moved move) :=
    below_refl .distinct _
  have entries := (ofEntries_below_iff (wellFormed_normalize _ _) _).mp whole
  exact (entries (q, tag) (mem_movedEntries_iff.mpr ⟨p, found, placed⟩)).of_distinct

/-- Moving respects the order of trees if opaque entries are moved along, and under the unified policy
if also no two entries of the smaller tree meet. -/
theorem moved_below (wf : x.WellFormed) (below : x.Below policy t) (tracks : Tracks move t)
    (faithful : policy = .unified → Faithful move x) :
    (x.moved move).Below policy (t.moved move) := by
  have covered {p q : Path} {tag : Tag} (found : x.get? p = some tag) (placed : move p = some q) :
      (t.moved move).Covers policy q tag := by
    have atP := below p
    rw [tag_of_get? found] at atP
    rcases atP with hidden | stored
    · obtain ⟨r, above, hides⟩ := hidden
      obtain ⟨r', placed', above'⟩ := tracks p q r placed above hides
      exact Or.inl ((covers_moved policy hides placed').hides above')
    · have known : t.tag p ≠ .bottom := stored.ne_bottom (wf.ne_bottom found)
      exact (covers_moved policy (get?_of_tag_ne_bottom known) placed).of_below stored
  cases policy with
  | distinct =>
    refine (ofEntries_below_iff (wellFormed_normalize _ _) _).mpr fun e member => ?_
    obtain ⟨p, found, placed⟩ := mem_movedEntries_iff.mp member
    exact covered found placed
  | unified =>
    intro q
    by_cases unknown : (x.moved move).tag q = .bottom
    · rw [unknown]
      exact covers_bottom _ _ q
    · have found := get?_of_tag_ne_bottom unknown
      have formed := (faithful rfl).formed wf
      obtain ⟨p, atP, placed⟩ := mem_movedEntries_iff.mp (formed.get?_ofEntries_eq_some_iff.mp found)
      exact covered atP placed

end Moving

/-! ## Changing the first hop -/

/-- Where the first hop of a value stands in the memory that holds the value. -/
def memoryHop? : Hop → Option Hop
  | .any => some (.byte 0)
  | .byte k => some (.byte k)

/-- Where a first hop stands when everything lies `n` bytes further on. -/
def advancedHop? (n : Nat) : Hop → Option Hop
  | .any => some .any
  | .byte k => some (.byte (k + n))

/-- Where a first hop stands when a window that starts at `offset` is moved to byte `target`. -/
def windowHop? (offset : Int) (extent : Extent) (target : Nat) : Hop → Option Hop
  | .any =>
    match extent with
    | .unbounded => some .any
    | .bytes _ => some (.byte target)
  | .byte k =>
    if k < offset || !extent.reaches (k - offset) then none
    else some (.byte (k - offset + target).toNat)

/-- Where a first hop stands in the value of a load of one object. -/
def loadedHop? (size : Nat) : Hop → Option Hop
  | .any => some .any
  | .byte k => if k < size then some (if k = 0 then .any else .byte k) else none

/-- Where a second hop stands in what a value points to, counted from byte `base` on. -/
def pointeeHop? (base : Nat) : Hop → Option Hop
  | .any => some .any
  | .byte k => if k < base then none else some (.byte (k - base))

end Tree

/-- The path with another first hop, if there is one for it. -/
def Path.mapFirst? (g : Hop → Option Hop) (p : Path) : Option Path :=
  (g p.first).map fun hop => ⟨hop, p.rest⟩

theorem Path.mapFirst?_eq_some_iff {g : Hop → Option Hop} {p q : Path} :
    p.mapFirst? g = some q ↔ g p.first = some q.first ∧ p.rest = q.rest := by
  obtain ⟨first, rest⟩ := q
  simp only [mapFirst?, Option.map_eq_some_iff, Path.mk.injEq]
  constructor
  · intro h
    obtain ⟨hop, found, rfl, rfl⟩ := h
    exact ⟨found, rfl⟩
  · intro h
    exact ⟨first, h.1, rfl, h.2⟩

theorem Path.withFirst_toInt (hop : Hop) (rest : List Hop) :
    withFirst hop.toInt rest = .ok ⟨hop, rest⟩ := by
  simp only [withFirst, Hop.ofInt?_eq_some_iff.mpr rfl]

/-- A window that is moved to a byte has a place for every path in it. -/
theorem Path.inWindow?_natCast (offset : Int) (extent : Extent) (target : Nat) (p : Path) :
    p.inWindow? offset extent target = .ok (p.mapFirst? (Tree.windowHop? offset extent target)) := by
  obtain ⟨first, rest⟩ := p
  cases first with
  | any =>
    cases extent with
    | unbounded => rfl
    | bytes size =>
      have placed : withFirst target rest = .ok ⟨.byte target, rest⟩ :=
        withFirst_toInt (.byte target) rest
      simp [inWindow?, mapFirst?, Tree.windowHop?, placed, bind, Except.bind, pure, Except.pure]
  | byte k =>
    by_cases outside : (k < offset || !extent.reaches (k - offset)) = true
    · simp only [inWindow?, mapFirst?, Tree.windowHop?, if_pos outside]
      rfl
    · have reached : offset ≤ k := by
        rw [Bool.or_eq_true, decide_eq_true_eq, not_or] at outside
        omega
      have number : (k : Int) - offset + target = (Hop.byte (k - offset + target).toNat).toInt := by
        rw [Hop.toInt]
        omega
      simp only [inWindow?, mapFirst?, Tree.windowHop?, if_neg outside]
      rw [number, withFirst_toInt]
      rfl

theorem Path.inPointee?_cons {base : Nat} {first hop : Hop} {rest : List Hop}
    (entered : first = .any ∨ first = .byte 0) :
    inPointee? base ⟨first, hop :: rest⟩ =
      (Tree.pointeeHop? base hop).map fun new => ⟨new, rest⟩ := by
  cases hop with
  | any => rcases entered with rfl | rfl <;> rfl
  | byte k =>
    by_cases before : k < base <;> rcases entered with rfl | rfl <;>
      simp [inPointee?, Tree.pointeeHop?, before]

theorem Path.inPointee?_eq_some_iff {base : Nat} {p q : Path} :
    p.inPointee? base = some q ↔
      (p.first = .any ∨ p.first = .byte 0) ∧
        ∃ hop, p.rest = hop :: q.rest ∧ Tree.pointeeHop? base hop = some q.first := by
  obtain ⟨first, rest⟩ := p
  obtain ⟨new, more⟩ := q
  constructor
  · intro placed
    have entered : first = .any ∨ first = .byte 0 := by
      cases first with
      | any => exact Or.inl rfl
      | byte n =>
        cases n with
        | zero => exact Or.inr rfl
        | succ n => simp [inPointee?] at placed
    cases rest with
    | nil => rcases entered with rfl | rfl <;> simp [inPointee?] at placed
    | cons hop rest =>
      rw [inPointee?_cons entered, Option.map_eq_some_iff] at placed
      obtain ⟨found, moved, same⟩ := placed
      cases same
      exact ⟨entered, hop, rfl, moved⟩
  · intro h
    obtain ⟨entered, hop, behind, moved⟩ := h
    cases behind
    simp [inPointee?_cons entered, moved]

namespace Tree

variable {policy : Policy} {a b t x : Tree} {p q : Path} {tag : Tag} {hop : Hop} {size : Nat}
  {g : Hop → Option Hop}

theorem toMemory_eq (t : Tree) : t.toMemory = t.moved (Path.mapFirst? memoryHop?) := by
  have move : (fun p => some (asMemory p)) = Path.mapFirst? memoryHop? := by
    funext p
    obtain ⟨first, rest⟩ := p
    cases first <;> simp [asMemory, Path.mapFirst?, memoryHop?]
  rw [toMemory, move]

theorem advanced_eq (n : Nat) (t : Tree) :
    t.advanced n = t.moved (Path.mapFirst? (advancedHop? n)) := by
  have move : (fun p => some (Path.advance n p)) = Path.mapFirst? (advancedHop? n) := by
    funext p
    obtain ⟨first, rest⟩ := p
    cases first <;> simp [Path.advance, Path.mapFirst?, advancedHop?]
  rw [advanced, move]

theorem window_natCast (offset : Int) (extent : Extent) (target : Nat) (t : Tree) :
    t.window offset extent target =
      .ok (t.moved (Path.mapFirst? (windowHop? offset extent target))) := by
  simp only [window, Path.inWindow?_natCast]
  change (do
    let places ← t.entries.mapM fun (e : Path × Tag) =>
      (pure ((e.1.mapFirst? (windowHop? offset extent target)).map fun p => (p, e.2)) :
        Except Path.Fault (Option (Path × Tag)))
    return ofEntries .distinct (places.filterMap id)) = _
  rw [List.mapM_pure]
  simp [moved, pure, Except.pure, bind, Except.bind, List.filterMap_map]

/-- A window without bound that starts at byte zero moves everything on. -/
theorem window_zero_unbounded (n : Nat) (t : Tree) :
    t.window 0 .unbounded n = .ok (t.advanced n) := by
  have hops : windowHop? 0 .unbounded n = advancedHop? n := by
    funext hop
    cases hop with
    | any => rfl
    | byte k =>
      have start : ¬ ((k : Int) < 0) := by omega
      have place : ((k : Int) + n).toNat = k + n := by omega
      simp [windowHop?, advancedHop?, Extent.reaches, start, place]
  rw [window_natCast, advanced_eq, hops]

theorem tracks_mapFirst? (g : Hop → Option Hop) (t : Tree) : Tracks (Path.mapFirst? g) t := by
  intro p q r placed above _
  obtain ⟨first, rest⟩ := Path.mapFirst?_eq_some_iff.mp placed
  obtain ⟨sameFirst, start, shorter⟩ := Path.isAncestorOf_iff.mp above
  rw [rest] at start shorter
  refine ⟨⟨q.first, r.rest⟩, Path.mapFirst?_eq_some_iff.mpr ⟨by rw [sameFirst, first], rfl⟩, ?_⟩
  exact Path.isAncestorOf_iff.mpr ⟨rfl, start, shorter⟩

/-- Changing first hops is faithful if no two of them become the same. -/
theorem faithful_mapFirst?
    (injective : ∀ hop hop' new, t.startsAt hop = true → t.startsAt hop' = true →
      g hop = some new → g hop' = some new → hop = hop') :
    Faithful (Path.mapFirst? g) t := by
  intro p p' q q' stored stored' placed placed'
  obtain ⟨first, rest⟩ := Path.mapFirst?_eq_some_iff.mp placed
  obtain ⟨first', rest'⟩ := Path.mapFirst?_eq_some_iff.mp placed'
  obtain ⟨tag, found⟩ := Option.isSome_iff_exists.mp stored
  obtain ⟨tag', found'⟩ := Option.isSome_iff_exists.mp stored'
  have starts := startsAt_iff.mpr ⟨p, tag, found, rfl⟩
  have starts' := startsAt_iff.mpr ⟨p', tag', found', rfl⟩
  have sameFirst (same : q.first = q'.first) : p.first = p'.first :=
    injective _ _ q.first starts starts' first (same ▸ first')
  constructor
  · intro same
    have equal := sameFirst (congrArg Path.first same)
    have rests : p.rest = p'.rest := by rw [rest, rest', same]
    cases p
    cases p'
    simp_all
  · intro above
    obtain ⟨firsts, start, shorter⟩ := Path.isAncestorOf_iff.mp above
    rw [← rest, ← rest'] at start shorter
    exact Path.isAncestorOf_iff.mpr ⟨sameFirst firsts, start, shorter⟩

/-- No entries start with the wildcard while others start at byte zero. -/
def Unmixed (t : Tree) : Prop := ¬ (t.startsAt .any = true ∧ t.startsAt (.byte 0) = true)

instance (t : Tree) : Decidable t.Unmixed := inferInstanceAs (Decidable (¬ _))

theorem Unmixed.of_below (unmixed : b.Unmixed) (wf : a.WellFormed) (below : a.Below policy b) :
    a.Unmixed := by
  intro mixed
  exact unmixed ⟨startsAt_of_below wf below mixed.1, startsAt_of_below wf below mixed.2⟩

theorem toMemory_below (wf : x.WellFormed) (below : x.Below policy t)
    (unmixed : policy = .unified → t.Unmixed) : x.toMemory.Below policy t.toMemory := by
  rw [toMemory_eq, toMemory_eq]
  refine moved_below wf below (tracks_mapFirst? _ t) fun unified => faithful_mapFirst? ?_
  have apart := (unmixed unified).of_below wf below
  intro hop hop' new starts starts' placed placed'
  cases hop with
  | any =>
    cases hop' with
    | any => rfl
    | byte k =>
      cases placed
      cases placed'
      exact absurd ⟨starts, starts'⟩ apart
  | byte k =>
    cases hop' with
    | any =>
      cases placed'
      cases placed
      exact absurd ⟨starts', starts⟩ apart
    | byte k' =>
      cases placed
      cases placed'
      rfl

theorem faithful_advancedHop? (n : Nat) (t : Tree) :
    Faithful (Path.mapFirst? (advancedHop? n)) t := by
  refine faithful_mapFirst? fun hop hop' new _ _ placed placed' => ?_
  cases hop <;> cases hop' <;> grind [advancedHop?]

theorem advanced_below (n : Nat) (wf : x.WellFormed) (below : x.Below policy t) :
    (x.advanced n).Below policy (t.advanced n) := by
  rw [advanced_eq, advanced_eq]
  exact moved_below wf below (tracks_mapFirst? _ t) fun _ => faithful_advancedHop? n x

/-! ## Going through a pointer -/

/-- Neither the value itself nor byte zero of it is opaque. -/
def Transparent (t : Tree) : Prop := t.tag .root ≠ .anything ∧ t.tag ⟨.byte 0, []⟩ ≠ .anything

instance (t : Tree) : Decidable t.Transparent := inferInstanceAs (Decidable (_ ∧ _))

theorem not_hides_of_rest_nil (p : Path) (last : p.rest = []) : ¬ t.Hides p := by
  intro hidden
  obtain ⟨q, above, -⟩ := hidden
  have shorter := (Path.isAncestorOf_iff.mp above).2.2
  rw [last] at shorter
  exact Nat.not_lt_zero _ shorter

theorem Transparent.of_below (transparent : b.Transparent) (below : a.Below policy b) :
    a.Transparent := by
  have opaque_ (p : Path) (last : p.rest = []) (top : a.tag p = .anything) : b.tag p = .anything := by
    have covered := below p
    rw [top] at covered
    rcases covered with hidden | stored
    · exact absurd hidden (not_hides_of_rest_nil p last)
    · exact Tag.anything_below_iff.mp stored
  exact ⟨fun top => transparent.1 (opaque_ _ rfl top), fun top => transparent.2 (opaque_ _ rfl top)⟩

theorem tracks_inPointee? (base : Nat) (transparent : t.Transparent) :
    Tracks (Path.inPointee? base) t := by
  intro p q r placed above hides
  obtain ⟨entered, hop, rest, moved⟩ := Path.inPointee?_eq_some_iff.mp placed
  obtain ⟨first, start, shorter⟩ := Path.isAncestorOf_iff.mp above
  rw [rest] at start shorter
  cases behind : r.rest with
  | nil =>
    -- The opaque entry would be the pointer itself.
    have top : t.tag r = .anything := tag_of_get? hides
    obtain ⟨rFirst, rRest⟩ := r
    cases behind
    rw [← first] at entered
    rcases entered with rfl | rfl
    · exact absurd top transparent.1
    · exact absurd top transparent.2
  | cons hop' more =>
    rw [behind, List.cons_prefix_cons] at start
    rw [behind] at shorter
    refine ⟨⟨q.first, more⟩, Path.inPointee?_eq_some_iff.mpr ⟨by rwa [first], hop, ?_, moved⟩, ?_⟩
    · rw [behind, start.1]
    · exact Path.isAncestorOf_iff.mpr ⟨rfl, start.2, by simpa using shorter⟩

theorem pointeeHop?_injective {base : Nat} {hop hop' new : Hop} (placed : pointeeHop? base hop = some new)
    (placed' : pointeeHop? base hop' = some new) : hop = hop' := by
  cases hop <;> cases hop' <;> simp_all [pointeeHop?] <;> grind

theorem faithful_inPointee? (base : Nat) (unmixed : t.Unmixed) :
    Faithful (Path.inPointee? base) t := by
  intro p p' q q' stored stored' placed placed'
  obtain ⟨entered, hop, rest, moved⟩ := Path.inPointee?_eq_some_iff.mp placed
  obtain ⟨entered', hop', rest', moved'⟩ := Path.inPointee?_eq_some_iff.mp placed'
  obtain ⟨tag, found⟩ := Option.isSome_iff_exists.mp stored
  obtain ⟨tag', found'⟩ := Option.isSome_iff_exists.mp stored'
  have starts := startsAt_iff.mpr ⟨p, tag, found, rfl⟩
  have starts' := startsAt_iff.mpr ⟨p', tag', found', rfl⟩
  have first : p.first = p'.first := by
    rcases entered with same | same <;> rcases entered' with same' | same' <;>
      rw [same] at starts ⊢ <;> rw [same'] at starts' ⊢
    · exact absurd ⟨starts, starts'⟩ unmixed
    · exact absurd ⟨starts', starts⟩ unmixed
  constructor
  · intro same
    subst same
    have hops := pointeeHop?_injective moved moved'
    cases p
    cases p'
    simp_all
  · intro above
    obtain ⟨firsts, start, shorter⟩ := Path.isAncestorOf_iff.mp above
    rw [firsts] at moved
    have hops := pointeeHop?_injective moved moved'
    refine Path.isAncestorOf_iff.mpr ⟨first, ?_, ?_⟩
    · rw [rest, rest', hops, List.cons_prefix_cons]
      exact ⟨rfl, start⟩
    · rw [rest, rest']
      simpa using shorter

theorem pointee_below (base : Nat) (wf : x.WellFormed) (below : x.Below policy t)
    (transparent : t.Transparent) (unmixed : policy = .unified → t.Unmixed) :
    (x.pointee base).Below policy (t.pointee base) :=
  moved_below wf below (tracks_inPointee? base transparent) fun unified =>
    faithful_inPointee? base ((unmixed unified).of_below wf below)

/-! ## Loading a value -/

/-- Not both byte zero and another one of the first `size` bytes start entries, so that what is loaded
is one object or does not start with one. -/
def LoadsOne (size : Nat) (t : Tree) : Prop :=
  ¬ (t.startsAt (.byte 0) = true ∧ t.startsInside size = true)

instance (size : Nat) (t : Tree) : Decidable (t.LoadsOne size) := inferInstanceAs (Decidable (¬ _))

theorem LoadsOne.of_below (one : b.LoadsOne size) (wf : a.WellFormed) (below : a.Below policy b) :
    a.LoadsOne size := by
  intro more
  obtain ⟨zero, inside⟩ := more
  obtain ⟨k, later, within, starts⟩ := startsInside_iff.mp inside
  exact one ⟨startsAt_of_below wf below zero,
    startsInside_iff.mpr ⟨k, later, within, startsAt_of_below wf below starts⟩⟩

theorem normalize_beq_ofEntries (policy : Policy) (m : OrderedMap Path Tag) :
    (normalize policy m == ofEntries policy m.entries) = true := by
  apply beq_of_below_iff policy (wellFormed_normalize policy m) (wellFormed_normalize policy _)
  intro t wf
  have entries : (ofEntries policy m.entries).Below policy t ↔ (mk m).Below policy t :=
    (ofEntries_below_iff wf _).trans (covers_entries_iff (a := mk m))
  exact (normalize_below_iff wf).trans entries.symm

theorem movedEntries_loadedHop? (size : Nat) (t : Tree) :
    t.movedEntries (Path.mapFirst? (loadedHop? size)) =
      (t.entries.filter fun e => startsWithin size e.1).map fun e => (asWhole e.1, e.2) := by
  rw [movedEntries, ← List.filterMap_eq_map, List.filterMap_filter]
  congr 1
  funext e
  obtain ⟨⟨first, rest⟩, tag⟩ := e
  cases first with
  | any => simp [Path.mapFirst?, loadedHop?, startsWithin, asWhole]
  | byte k =>
    by_cases within : k < size <;> by_cases zero : k = 0 <;>
      simp [Path.mapFirst?, loadedHop?, startsWithin, asWhole, within, zero]

/-- A load of one object only changes first hops. -/
theorem read_beq_moved (one : t.LoadsOne size) :
    (t.read size == t.moved (Path.mapFirst? (loadedHop? size))) = true := by
  have entries : t.moved (Path.mapFirst? (loadedHop? size)) = ofEntries .distinct
      ((t.map.filter fun p _ => startsWithin size p).entries.map fun e => (asWhole e.1, e.2)) :=
    congrArg (ofEntries .distinct) (movedEntries_loadedHop? size t)
  unfold read
  dsimp only
  split
  · rw [entries]
    exact beq_iff.mpr fun _ => rfl
  · next several =>
    -- Byte zero starts no entry that is loaded, or it would be the only one to do so.
    have elsewhere : ∀ e ∈ (t.map.filter fun p _ => startsWithin size p).entries,
        e.1.first ≠ .byte 0 := by
      intro e member zero
      refine several ?_
      simp only [isWholeObject, Bool.and_eq_true, List.any_eq_true, List.all_eq_true,
        Bool.or_eq_true, decide_eq_true_eq]
      refine ⟨⟨e, member, zero⟩, fun e' member' => ?_⟩
      obtain ⟨listed, -⟩ := List.mem_filter.mp member
      obtain ⟨listed', within⟩ := List.mem_filter.mp member'
      have startsZero : t.startsAt (.byte 0) = true :=
        startsAt_iff.mpr ⟨e.1, e.2, mem_entries_iff.mp listed, zero⟩
      cases first : e'.1.first with
      | any => exact Or.inl rfl
      | byte k =>
        right
        by_cases atZero : k = 0
        · rw [atZero]
        · simp only [startsWithin, first, decide_eq_true_eq] at within
          exact absurd ⟨startsZero, startsInside_iff.mpr ⟨k, Nat.pos_of_ne_zero atZero, within,
            startsAt_iff.mpr ⟨e'.1, e'.2, mem_entries_iff.mp listed', first⟩⟩⟩ one
    have kept : ((t.map.filter fun p _ => startsWithin size p).entries.map fun e =>
        (asWhole e.1, e.2)) = (t.map.filter fun p _ => startsWithin size p).entries := by
      refine (List.map_congr_left fun e member => ?_).trans (List.map_id _)
      simp [asWhole, elsewhere e member]
    rw [entries, kept]
    exact normalize_beq_ofEntries _ _

theorem read_below (wf : x.WellFormed) (below : x.Below policy t) (one : t.LoadsOne size)
    (unmixed : policy = .unified → t.Unmixed) : (x.read size).Below policy (t.read size) := by
  have moved : (x.moved (Path.mapFirst? (loadedHop? size))).Below policy
      (t.moved (Path.mapFirst? (loadedHop? size))) := by
    refine moved_below wf below (tracks_mapFirst? _ t) fun unified => faithful_mapFirst? ?_
    have apart := (unmixed unified).of_below wf below
    intro hop hop' new starts starts' placed placed'
    cases hop with
    | any =>
      cases hop' with
      | any => rfl
      | byte k =>
        cases placed
        by_cases zero : k = 0
        · subst zero
          exact absurd ⟨starts, starts'⟩ apart
        · simp [loadedHop?, zero] at placed'
    | byte k =>
      cases hop' with
      | any =>
        cases placed'
        by_cases zero : k = 0
        · subst zero
          exact absurd ⟨starts', starts⟩ apart
        · simp [loadedHop?, zero] at placed
      | byte k' => grind [loadedHop?]
  exact (below_of_beq policy (read_beq_moved (one.of_below wf below))).trans
    (moved.trans (below_of_beq policy (beq_symm (read_beq_moved one))))

/-! ## Pointers to memory -/

theorem get?_scalar_eq_some_iff {kind : Tag} (known : kind ≠ .bottom) :
    (scalar kind).get? p = some tag ↔ p = .root ∧ tag = kind := by
  rw [scalar, (Formed.singleton .root known).get?_ofEntries_eq_some_iff, List.mem_singleton,
    Prod.mk.injEq]

/-- A pointer to some memory stores itself and what the memory stores, behind one more hop. -/
theorem get?_pointerTo_eq_some_iff (wf : t.WellFormed) :
    (pointerTo t).get? p = some tag ↔
      (p = .root ∧ tag = .pointer) ∨ ∃ q, t.get? q = some tag ∧ p = ⟨.any, q.hops⟩ := by
  have behind (e : Path × Tag) (member : e ∈ (t.under .any).entries) :
      ∃ q, t.get? q = some e.2 ∧ e.1 = ⟨.any, q.hops⟩ :=
    (get?_under_eq_some_iff .any).mp (mem_entries_iff.mp member)
  have formed : Formed ((.root, .pointer) :: (t.under .any).entries) := by
    have later := (wellFormed_under .any wf).formed
    constructor
    · rw [List.map_cons, List.nodup_cons]
      refine ⟨fun member => ?_, later.distinct⟩
      obtain ⟨e, listed, same⟩ := List.mem_map.mp member
      obtain ⟨q, -, place⟩ := behind e listed
      rw [same] at place
      simp [Path.root, Path.hops] at place
    · intro e member
      rcases List.mem_cons.mp member with first | listed
      · rw [first]
        decide
      · exact later.known e listed
    · intro e member e' member' above
      rcases List.mem_cons.mp member with first | listed
      · rw [first]
      · rcases List.mem_cons.mp member' with first' | listed'
        · rw [first'] at above
          exact absurd (Path.isAncestorOf_iff.mp above).2.2 (Nat.not_lt_zero _)
        · exact later.pointers e listed e' listed' above
  have same : (pointerTo t == ofEntries .distinct ((.root, .pointer) :: (t.under .any).entries)) =
      true := by
    apply beq_of_below_iff .distinct (wellFormed_normalize _ _) (wellFormed_normalize _ _)
    intro u wfU
    have first : (scalar .pointer).Below .distinct u ↔ u.Covers .distinct .root .pointer :=
      (ofEntries_below_iff wfU _).trans List.forall_mem_singleton
    have whole : (ofEntries .distinct ((.root, .pointer) :: (t.under .any).entries)).Below .distinct u ↔
        u.Covers .distinct .root .pointer ∧
          ∀ e ∈ (t.under .any).entries, u.Covers .distinct e.1 e.2 :=
      (ofEntries_below_iff wfU _).trans List.forall_mem_cons
    exact (merge_below_iff wfU).trans ((and_congr first covers_entries_iff.symm).trans whole.symm)
  rw [beq_iff.mp same, formed.get?_ofEntries_eq_some_iff, List.mem_cons, Prod.mk.injEq,
    mem_entries_iff, get?_under_eq_some_iff]

/-- One more hop before every path respects the order of trees. -/
theorem under_below (hop : Hop) (below : x.Below policy t) :
    (x.under hop).Below policy (t.under hop) := by
  intro p
  by_cases unknown : (x.under hop).tag p = .bottom
  · rw [unknown]
    exact covers_bottom policy _ p
  · obtain ⟨q, found, rfl⟩ := (get?_under_eq_some_iff hop).mp (get?_of_tag_ne_bottom unknown)
    rcases below q with hidden | stored
    · obtain ⟨r, above, hides⟩ := hidden
      have moved : (t.under hop).get? ⟨hop, r.hops⟩ = some .anything :=
        (get?_under_eq_some_iff hop).mpr ⟨r, hides, rfl⟩
      exact Or.inl ⟨_, Path.isAncestorOf_cons_iff.mpr ⟨rfl, above⟩, moved⟩
    · rw [tag_of_get? found] at stored
      have known : t.tag q ≠ .bottom := stored.ne_bottom unknown
      have moved : (t.under hop).get? ⟨hop, q.hops⟩ = some (t.tag q) :=
        (get?_under_eq_some_iff hop).mpr ⟨q, get?_of_tag_ne_bottom known, rfl⟩
      right
      rw [tag_of_get? moved]
      exact stored

theorem pointerTo_below (wf : x.WellFormed) (below : x.Below policy t) :
    (pointerTo x).Below policy (pointerTo t) := by
  have memory : (t.under .any).Below .distinct (pointerTo t) := below_merge_right .distinct _ _
  have itself : (scalar .pointer).Below .distinct (pointerTo t) := below_merge_left .distinct _ _
  intro p
  by_cases unknown : (pointerTo x).tag p = .bottom
  · rw [unknown]
    exact covers_bottom policy _ p
  · have found := get?_of_tag_ne_bottom unknown
    rcases (get?_pointerTo_eq_some_iff wf).mp found with root | behind
    · obtain ⟨rfl, pointer⟩ := root
      have covered := itself .root
      have stored : (scalar .pointer).get? .root = some .pointer :=
        (get?_scalar_eq_some_iff (by decide)).mpr ⟨rfl, rfl⟩
      rw [tag_of_get? stored] at covered
      rw [pointer]
      exact covered.of_distinct
    · have covered := under_below .any below p
      rw [tag_of_get? ((get?_under_eq_some_iff .any).mpr behind)] at covered
      exact memory.of_distinct.covers covered

/-! ## What instructions make of trees -/

/-- What lies behind a pointer is not lost when more becomes known. -/
structure SteadyPointer (policy : Policy) (t : Tree) : Prop where
  transparent : t.Transparent
  unmixed : policy = .unified → t.Unmixed

/-- What `size` bytes behind a pointer hold is not lost when more becomes known. -/
structure SteadyLoad (policy : Policy) (size : Nat) (t : Tree) : Prop where
  pointer : t.SteadyPointer policy
  one : (t.pointee 0).LoadsOne size
  unmixed : policy = .unified → (t.pointee 0).Unmixed

instance (policy : Policy) (t : Tree) : Decidable (t.SteadyPointer policy) :=
  decidable_of_iff (t.Transparent ∧ (policy = .unified → t.Unmixed))
    ⟨fun h => ⟨h.1, h.2⟩, fun h => ⟨h.1, h.2⟩⟩

instance (policy : Policy) (size : Nat) (t : Tree) : Decidable (t.SteadyLoad policy size) :=
  decidable_of_iff (t.SteadyPointer policy ∧ (t.pointee 0).LoadsOne size ∧
      (policy = .unified → (t.pointee 0).Unmixed))
    ⟨fun h => ⟨h.1, h.2.1, h.2.2⟩, fun h => ⟨h.1, h.2, h.3⟩⟩

theorem SteadyPointer.pointee_below (steady : t.SteadyPointer policy) (base : Nat)
    (wf : x.WellFormed) (below : x.Below policy t) :
    (x.pointee base).Below policy (t.pointee base) :=
  Tree.pointee_below base wf below steady.transparent steady.unmixed

theorem SteadyPointer.of_below (steady : b.SteadyPointer policy) (wf : a.WellFormed)
    (below : a.Below policy b) : a.SteadyPointer policy :=
  ⟨steady.transparent.of_below below, fun unified => (steady.unmixed unified).of_below wf below⟩

theorem SteadyLoad.of_below (steady : b.SteadyLoad policy size) (wf : a.WellFormed)
    (below : a.Below policy b) : a.SteadyLoad policy size := by
  have wfMemory : (a.pointee 0).WellFormed := wellFormed_normalize _ _
  have memory := steady.pointer.pointee_below 0 wf below
  exact ⟨steady.pointer.of_below wf below, steady.one.of_below wfMemory memory,
    fun unified => (steady.unmixed unified).of_below wfMemory memory⟩

theorem SteadyLoad.loaded_below (steady : t.SteadyLoad policy size) (wf : x.WellFormed)
    (below : x.Below policy t) : (x.loaded size).Below policy (t.loaded size) :=
  read_below (wellFormed_normalize _ _) (steady.pointer.pointee_below 0 wf below) steady.one
    steady.unmixed

theorem stored_below (wf : x.WellFormed) (below : x.Below policy t)
    (unmixed : policy = .unified → t.Unmixed) : x.stored.Below policy t.stored :=
  pointerTo_below (wellFormed_normalize _ _) (toMemory_below wf below unmixed)

theorem SteadyPointer.movedForward_below (steady : t.SteadyPointer policy) (n : Nat)
    (wf : x.WellFormed) (below : x.Below policy t) :
    (x.movedForward n).Below policy (t.movedForward n) :=
  pointerTo_below (wellFormed_normalize _ _) (steady.pointee_below n wf below)

theorem SteadyPointer.movedBackward_below (steady : t.SteadyPointer policy) (n : Nat)
    (wf : x.WellFormed) (below : x.Below policy t) :
    (x.movedBackward n).Below policy (t.movedBackward n) :=
  pointerTo_below (wellFormed_normalize _ _)
    (advanced_below n (wellFormed_normalize _ _) (steady.pointee_below 0 wf below))

end Tree

end ByteLayout
