import ByteLayout.Proofs.SteadyTransfer
import ByteLayout.Proofs.TreeOfEntries

/-! # Moving pointers on and back

What a tree stores under one first hop depends only on the entries under that hop. Hence the pointee
of a value from byte `a + b` on is its pointee from byte `a` on, read `b` bytes further, although
entries under the wildcard and under byte zero meet there and may contradict each other. Moves of a
pointer by constant offsets therefore add up in both directions. Moving a pointer on and back again
keeps exactly what lies behind the bytes that were passed. -/

namespace ByteLayout

namespace Path

variable {p q : Path} {base n : Nat}

@[simp] theorem rest_advance (n : Nat) (p : Path) : (p.advance n).rest = p.rest := by
  unfold advance
  split <;> rfl

@[simp] theorem advance_zero (p : Path) : p.advance 0 = p := by
  obtain ⟨first, rest⟩ := p
  cases first <;> rfl

theorem advance_advance (m n : Nat) (p : Path) : (p.advance n).advance m = p.advance (m + n) := by
  obtain ⟨first, rest⟩ := p
  cases first with
  | any => rfl
  | byte k => simp [advance, Nat.add_assoc, Nat.add_comm m n]

theorem first_advance (n : Nat) (p : Path) :
    Tree.advancedHop? n p.first = some (p.advance n).first := by
  obtain ⟨first, rest⟩ := p
  cases first <;> rfl

/-- A hop lies in the pointee `n` bytes before the place from which it is taken. -/
theorem pointeeHop?_eq_some_iff {hop new : Hop} :
    Tree.pointeeHop? n hop = some new ↔ Tree.advancedHop? n new = some hop := by
  cases hop <;> cases new
  case byte.byte k k' =>
    simp only [Tree.pointeeHop?, Tree.advancedHop?, Option.some.injEq, Hop.byte.injEq]
    split
    · next before => simp only [reduceCtorEq, false_iff]; omega
    · next reached => simp only [Option.some.injEq, Hop.byte.injEq]; omega
  all_goals simp [Tree.pointeeHop?, Tree.advancedHop?]

/-- Entering the pointee at a later byte is entering it at an earlier one and going on. -/
theorem inPointee?_add_eq_some_iff :
    p.inPointee? (base + n) = some q ↔ p.inPointee? base = some (q.advance n) := by
  have hops (hop : Hop) : Tree.pointeeHop? (base + n) hop = some q.first ↔
      Tree.pointeeHop? base hop = some (q.advance n).first := by
    rw [pointeeHop?_eq_some_iff, pointeeHop?_eq_some_iff, first_advance, first_advance,
      advance_advance]
  simp only [inPointee?_eq_some_iff, rest_advance, hops]

/-- Behind a pointer, the pointee is entered by taking the first hop away. -/
theorem inPointee?_behind_eq_some_iff :
    inPointee? n ⟨.any, p.hops⟩ = some q ↔ p = q.advance n := by
  have parts : p = q.advance n ↔ p.first = (q.advance n).first ∧ p.rest = q.rest := by
    rw [← rest_advance n q]
    generalize q.advance n = r
    cases p
    cases r
    simp
  rw [inPointee?_eq_some_iff, parts]
  simp only [pointeeHop?_eq_some_iff, first_advance, hops, Option.some.injEq, List.cons.injEq,
    true_or, true_and]
  constructor
  · rintro ⟨hop, ⟨rfl, rest⟩, first⟩
    exact ⟨first.symm, rest⟩
  · rintro ⟨first, rest⟩
    exact ⟨p.first, ⟨rfl, rest⟩, first.symm⟩

end Path

namespace Tree

variable {policy : Policy} {t memory : Tree} {p q : Path} {tag : Tag} {a b n : Nat}

/-! ## Entries under one first hop -/

section FirstHop

variable {es es' : List (Path × Tag)} {hop hop' : Hop} {rest : List Hop}

/-- One list says under a first hop what another one says under a first hop of its own. -/
def SaysAlike (es : List (Path × Tag)) (hop : Hop) (es' : List (Path × Tag)) (hop' : Hop) : Prop :=
  ∀ rest tag, (⟨hop, rest⟩, tag) ∈ es ↔ (⟨hop', rest⟩, tag) ∈ es'

theorem SaysAlike.symm (alike : SaysAlike es hop es' hop') : SaysAlike es' hop' es hop :=
  fun rest tag => (alike rest tag).symm

theorem SaysAlike.listedTag (alike : SaysAlike es hop es' hop') (policy : Policy)
    (rest : List Hop) : listedTag policy es ⟨hop, rest⟩ = listedTag policy es' ⟨hop', rest⟩ := by
  refine (isJoin_listedTag policy es ⟨hop, rest⟩).unique ?_
  refine (isJoin_listedTag policy es' ⟨hop', rest⟩).congr fun given => ?_
  rw [alike rest given]

/-- What lies behind a path starts with the same hop. -/
theorem SaysAlike.hasDescendant (alike : SaysAlike es hop es' hop')
    (parent : hasDescendant (known (addAll policy .empty es)) ⟨hop, rest⟩ = true) :
    hasDescendant (known (addAll policy .empty es')) ⟨hop', rest⟩ = true := by
  rw [hasDescendant_known_iff] at *
  obtain ⟨⟨first, more⟩, above, present⟩ := parent
  obtain ⟨same, start, shorter⟩ := Path.isAncestorOf_iff.mp above
  cases same
  refine ⟨⟨hop', more⟩, Path.isAncestorOf_iff.mpr ⟨rfl, start, shorter⟩, ?_⟩
  rwa [tag_addAll_empty, ← alike.listedTag, ← tag_addAll_empty]

theorem SaysAlike.tag_promote (alike : SaysAlike es hop es' hop') (policy : Policy)
    (rest : List Hop) :
    (mk (promote policy (known (addAll policy .empty es)))).tag ⟨hop, rest⟩ =
      (mk (promote policy (known (addAll policy .empty es')))).tag ⟨hop', rest⟩ := by
  have parent : Tree.hasDescendant (known (addAll policy .empty es)) ⟨hop, rest⟩ =
      Tree.hasDescendant (known (addAll policy .empty es')) ⟨hop', rest⟩ :=
    Bool.eq_iff_iff.mpr ⟨alike.hasDescendant, alike.symm.hasDescendant⟩
  rw [Tree.tag_promote, Tree.tag_promote, tag_known, tag_known, tag_addAll_empty, tag_addAll_empty,
    alike.listedTag policy rest, parent]

/-- What stands on the way to a path starts with the same hop. -/
theorem SaysAlike.isHidden (alike : SaysAlike es hop es' hop')
    (hidden : isHidden (promote policy (known (addAll policy .empty es))) ⟨hop, rest⟩ = true) :
    isHidden (promote policy (known (addAll policy .empty es'))) ⟨hop', rest⟩ = true := by
  rw [isHidden_iff] at *
  obtain ⟨⟨first, less⟩, above, found⟩ := hidden
  obtain ⟨same, start, shorter⟩ := Path.isAncestorOf_iff.mp above
  cases same
  refine ⟨⟨hop', less⟩, Path.isAncestorOf_iff.mpr ⟨rfl, start, shorter⟩, ?_⟩
  have top : (mk (promote policy (known (addAll policy .empty es)))).tag ⟨hop, less⟩ = .anything :=
    tag_eq_anything_iff.mpr found
  rw [alike.tag_promote] at top
  exact tag_eq_anything_iff.mp top

/-- What the tree of a list stores under a first hop depends on the entries under that hop alone. -/
theorem SaysAlike.get?_ofEntries (alike : SaysAlike es hop es' hop') (policy : Policy)
    (rest : List Hop) :
    (ofEntries policy es).get? ⟨hop, rest⟩ = (ofEntries policy es').get? ⟨hop', rest⟩ := by
  have hidden : Tree.isHidden (promote policy (known (addAll policy .empty es))) ⟨hop, rest⟩ =
      Tree.isHidden (promote policy (known (addAll policy .empty es'))) ⟨hop', rest⟩ :=
    Bool.eq_iff_iff.mpr ⟨alike.isHidden, alike.symm.isHidden⟩
  have same : (ofEntries policy es).tag ⟨hop, rest⟩ = (ofEntries policy es').tag ⟨hop', rest⟩ := by
    rw [ofEntries, ofEntries, tag_normalize, tag_normalize, hidden, alike.tag_promote]
  rw [(wellFormed_ofEntries policy es).get?_eq, (wellFormed_ofEntries policy es').get?_eq, same]

end FirstHop

/-! ## Going through a pointer at a later byte -/

/-- The pointee from a later byte on is the pointee from an earlier one on, read further on. -/
theorem get?_pointee_add (t : Tree) (base n : Nat) (p : Path) :
    (t.pointee (base + n)).get? p = (t.pointee base).get? (p.advance n) := by
  have alike : SaysAlike (t.movedEntries (Path.inPointee? (base + n))) p.first
      (t.movedEntries (Path.inPointee? base)) (p.advance n).first := by
    intro rest tag
    rw [mem_movedEntries_iff, mem_movedEntries_iff]
    refine exists_congr fun q => and_congr_right fun _ => ?_
    rw [Path.inPointee?_add_eq_some_iff]
    obtain ⟨first, -⟩ := p
    cases first <;> rfl
  have advanced : p.advance n = ⟨(p.advance n).first, p.rest⟩ := by
    rw [← Path.rest_advance n p]
  rw [advanced]
  exact alike.get?_ofEntries .distinct p.rest

theorem Faithful.get?_moved_eq_some_iff {move : Path → Option Path} (faithful : Faithful move t)
    (wf : t.WellFormed) :
    (t.moved move).get? q = some tag ↔ ∃ p, t.get? p = some tag ∧ move p = some q := by
  rw [← mem_movedEntries_iff]
  exact (faithful.formed wf).get?_ofEntries_eq_some_iff

/-- All first hops are the wildcard. -/
def IsValue (t : Tree) : Prop := ∀ p tag, t.get? p = some tag → p.first = .any

theorem IsValue.unmixed (value : t.IsValue) : t.Unmixed := by
  rintro ⟨-, zero⟩
  obtain ⟨p, tag, found, first⟩ := startsAt_iff.mp zero
  rw [value p tag found] at first
  cases first

/-- What a value tree stores behind its pointers is what its pointee stores. -/
theorem IsValue.get?_pointee (value : t.IsValue) (wf : t.WellFormed) (n : Nat) (p : Path) :
    (t.pointee n).get? p = t.get? ⟨.any, (p.advance n).hops⟩ := by
  apply Option.ext
  intro tag
  refine ((faithful_inPointee? n value.unmixed).get?_moved_eq_some_iff wf).trans ?_
  constructor
  · rintro ⟨q, found, entered⟩
    have first := value q tag found
    obtain ⟨-, hop, behind, -⟩ := Path.inPointee?_eq_some_iff.mp entered
    obtain ⟨qFirst, qRest⟩ := q
    cases first
    cases behind
    have moved : (⟨hop, p.rest⟩ : Path) = p.advance n :=
      Path.inPointee?_behind_eq_some_iff.mp entered
    rw [← moved]
    exact found
  · intro found
    exact ⟨_, found, Path.inPointee?_behind_eq_some_iff.mpr rfl⟩

theorem isValue_pointerTo (wf : memory.WellFormed) : (pointerTo memory).IsValue := by
  intro p tag found
  rcases (get?_pointerTo_eq_some_iff wf).mp found with ⟨rfl, -⟩ | ⟨q, -, rfl⟩
  · rfl
  · rfl

theorem get?_pointerTo_behind (wf : memory.WellFormed) (p : Path) :
    (pointerTo memory).get? ⟨.any, p.hops⟩ = memory.get? p := by
  apply Option.ext
  intro tag
  rw [get?_pointerTo_eq_some_iff wf]
  constructor
  · rintro (⟨root, -⟩ | ⟨q, found, same⟩)
    · simp [Path.root, Path.hops] at root
    · have equal : p = q := by
        cases p
        cases q
        simpa [Path.hops] using same
      rwa [equal]
  · intro found
    exact Or.inr ⟨p, found, rfl⟩

/-- Going through a pointer to some memory leads back to that memory. -/
theorem get?_pointee_pointerTo (wf : memory.WellFormed) (n : Nat) (p : Path) :
    ((pointerTo memory).pointee n).get? p = memory.get? (p.advance n) := by
  rw [(isValue_pointerTo wf).get?_pointee (wellFormed_merge _ _ _), get?_pointerTo_behind wf]

theorem pointerTo_beq {memory' : Tree} (wf : memory.WellFormed)
    (same : (memory == memory') = true) : (pointerTo memory == pointerTo memory') = true := by
  have wf' := wellFormed_of_beq same wf
  rw [beq_iff] at same ⊢
  intro p
  apply Option.ext
  intro tag
  simp only [get?_pointerTo_eq_some_iff wf, get?_pointerTo_eq_some_iff wf', same]

theorem wellFormed_pointee (n : Nat) (t : Tree) : (t.pointee n).WellFormed :=
  wellFormed_ofEntries _ _

theorem wellFormed_advanced (n : Nat) (t : Tree) : (t.advanced n).WellFormed :=
  wellFormed_ofEntries _ _

/-! ## Moves of pointers -/

theorem movedForward_movedForward_beq (t : Tree) (a b : Nat) :
    ((t.movedForward a).movedForward b == t.movedForward (a + b)) = true := by
  apply pointerTo_beq (wellFormed_pointee b _)
  rw [beq_iff]
  intro p
  rw [movedForward, get?_pointee_pointerTo (wellFormed_pointee a t), get?_pointee_add]

theorem get?_advanced_eq_some_iff (wf : memory.WellFormed) :
    (memory.advanced n).get? q = some tag ↔
      ∃ p, memory.get? p = some tag ∧ p.advance n = q := by
  have placed (p : Path) : p.mapFirst? (advancedHop? n) = some q ↔ p.advance n = q := by
    obtain ⟨first, rest⟩ := p
    cases first <;> simp [Path.mapFirst?, advancedHop?, Path.advance]
  rw [advanced_eq, (faithful_advancedHop? n memory).get?_moved_eq_some_iff wf]
  simp only [placed]

theorem movedBackward_movedBackward_beq (t : Tree) (a b : Nat) :
    ((t.movedBackward b).movedBackward a == t.movedBackward (a + b)) = true := by
  apply pointerTo_beq (wellFormed_advanced a _)
  rw [beq_iff]
  intro q
  apply Option.ext
  intro tag
  simp only [movedBackward, get?_advanced_eq_some_iff (wellFormed_pointee 0 _),
    get?_pointee_pointerTo (wellFormed_advanced b _), Path.advance_zero]
  constructor
  · rintro ⟨p, ⟨r, found, rfl⟩, rfl⟩
    exact ⟨r, found, (Path.advance_advance a b r).symm⟩
  · rintro ⟨r, found, rfl⟩
    exact ⟨r.advance b, ⟨r, found, rfl⟩, Path.advance_advance a b r⟩

/-- A path enters the pointee of a value at the wildcard or at a byte from `n` on. -/
def EntersFrom (n : Nat) (p : Path) : Prop :=
  ∃ hop rest, p.rest = hop :: rest ∧ (hop = .any ∨ ∃ k, n ≤ k ∧ hop = .byte k)

theorem entersFrom_iff (value : p.first = .any) :
    EntersFrom n p ↔ ∃ q : Path, p = ⟨.any, (q.advance n).hops⟩ := by
  obtain ⟨first, rest⟩ := p
  cases value
  constructor
  · rintro ⟨hop, rest, rfl, rfl | ⟨k, late, rfl⟩⟩
    · exact ⟨⟨.any, rest⟩, rfl⟩
    · refine ⟨⟨.byte (k - n), rest⟩, ?_⟩
      simp [Path.hops, Path.advance, Nat.sub_add_cancel late]
  · rintro ⟨⟨first, rest⟩, same⟩
    cases same
    cases first with
    | any => exact ⟨.any, rest, rfl, Or.inl rfl⟩
    | byte k => exact ⟨.byte (k + n), rest, rfl, Or.inr ⟨k + n, Nat.le_add_left n k, rfl⟩⟩

/-- Moving a pointer on and back keeps what lies behind the bytes that it passed. -/
theorem IsValue.get?_movedForward_movedBackward (value : t.IsValue) (wf : t.WellFormed) :
    ((t.movedForward a).movedBackward a).get? p = some tag ↔
      (p = .root ∧ tag = .pointer) ∨ (t.get? p = some tag ∧ EntersFrom a p) := by
  rw [movedBackward, get?_pointerTo_eq_some_iff (wellFormed_advanced a _)]
  refine or_congr_right ?_
  simp only [get?_advanced_eq_some_iff (wellFormed_pointee 0 _), movedForward,
    get?_pointee_pointerTo (wellFormed_pointee a t), Path.advance_zero, value.get?_pointee wf]
  constructor
  · rintro ⟨q, ⟨r, found, rfl⟩, rfl⟩
    exact ⟨found, (entersFrom_iff rfl).mpr ⟨r, rfl⟩⟩
  · rintro ⟨found, enters⟩
    obtain ⟨r, rfl⟩ := (entersFrom_iff (value p tag found)).mp enters
    exact ⟨r.advance a, ⟨r, found, rfl⟩, rfl⟩

end Tree

namespace Transfer

/-- A rule that moves a pointer on by a number of bytes cannot fail when the number is not negative. -/
theorem forward_natCast (n : Nat) : forward n = total (.movedForward n) := by
  have entered (t : Tree) : t.pointeeFrom n = .ok (t.pointee n) := by
    simp [Tree.pointeeFrom]
  funext sources
  cases sources with
  | nil => rfl
  | cons source _ =>
    simp only [forward, total, unary, entered]
    rfl

theorem backward_natCast (n : Nat) : backward n = total (.movedBackward n) := by
  funext sources
  cases sources with
  | nil => rfl
  | cons source _ =>
    simp only [backward, total, unary, Tree.window_zero_unbounded]
    rfl

end Transfer

namespace Tree

/-- Moves of a pointer by constant offsets add up, on and back, whatever entries meet on the way; they
are what the rules of the propagation make of offsets that are not negative. Where all first hops are
the wildcard, moving on by `a` bytes and back yields a pointer with exactly those entries that enter
its pointee at the wildcard or from byte `a` on, with their tags unchanged. -/
theorem constantOffsets_compose {t : Tree} (wf : t.WellFormed) (a b : Nat) :
    (Transfer.forward a = .total (movedForward a) ∧
      Transfer.backward a = .total (movedBackward a)) ∧
    ((t.movedForward a).movedForward b == t.movedForward (a + b)) = true ∧
    ((t.movedBackward b).movedBackward a == t.movedBackward (a + b)) = true ∧
    ((∀ p tag, t.get? p = some tag → p.first = .any) → ∀ p tag,
      ((t.movedForward a).movedBackward a).get? p = some tag ↔
        (p = .root ∧ tag = .pointer) ∨
          (t.get? p = some tag ∧ ∃ hop rest, p.rest = hop :: rest ∧
            (hop = .any ∨ ∃ k, a ≤ k ∧ hop = .byte k))) := by
  refine ⟨⟨Transfer.forward_natCast a, Transfer.backward_natCast a⟩,
    movedForward_movedForward_beq t a b, movedBackward_movedBackward_beq t a b, ?_⟩
  intro value p tag
  exact IsValue.get?_movedForward_movedBackward value wf

/-- A pointer to fields at bytes two and four and to something that is everywhere the same. -/
def spreadFields : Tree := ofEntries .distinct
  [(.root, .pointer), (⟨.any, [.any]⟩, .integer), (⟨.any, [.byte 2]⟩, .float .half),
    (⟨.any, [.byte 4]⟩, .pointer), (⟨.any, [.byte 4, .byte 0]⟩, .float .double)]

/-- A pointer whose byte zero is a pointer, too, and has an address where the other one has a number. -/
def doubledPointer : Tree := ofEntries .distinct
  [(.root, .pointer), (⟨.any, [.byte 4]⟩, .integer), (⟨.byte 0, []⟩, .pointer),
    (⟨.byte 0, [.byte 4]⟩, .pointer), (⟨.byte 0, [.byte 4, .byte 0]⟩, .float .double)]

/-- On by four bytes and back again, the field at byte four is kept and the one at byte two is not. The
contradiction at byte four of the doubled pointer arises in one move as in two. -/
theorem constantOffsets_compose_fields :
    (spreadFields.WellFormed ∧ (∀ p tag, spreadFields.get? p = some tag → p.first = .any) ∧
      ((spreadFields.movedForward 4).movedBackward 4).get? ⟨.any, [.byte 4, .byte 0]⟩ =
        some (.float .double) ∧
      ((spreadFields.movedForward 4).movedBackward 4).get? ⟨.any, [.byte 2]⟩ ≠
        some (.float .half)) ∧
    doubledPointer.WellFormed ∧
      ((doubledPointer.movedForward 1).movedForward 3 == doubledPointer.movedForward 4) = true ∧
      (doubledPointer.movedForward 4).get? ⟨.any, [.byte 0]⟩ = some .anything := by
  have wf : spreadFields.WellFormed := wellFormed_ofEntries _ _
  have value : ∀ p tag, spreadFields.get? p = some tag → p.first = .any := by
    intro p tag found
    have all : spreadFields.entries.all (fun e => e.1.first = .any) = true := by decide
    exact of_decide_eq_true (List.all_eq_true.mp all _ (mem_entries_iff.mpr found))
  have kept := (constantOffsets_compose wf 4 0).2.2.2 value
  refine ⟨⟨wf, value, ?_, ?_⟩, wellFormed_ofEntries _ _,
    (constantOffsets_compose (wellFormed_ofEntries _ _) 1 3).2.1, by decide⟩
  · exact (kept _ _).mpr (Or.inr ⟨by decide, _, _, rfl, Or.inr ⟨4, Nat.le_refl 4, rfl⟩⟩)
  · intro found
    rcases (kept _ _).mp found with ⟨root, -⟩ | ⟨-, hop, rest, enters, late⟩
    · cases root
    · cases enters
      rcases late with wild | ⟨k, late, same⟩
      · cases wild
      · cases same
        omega

end Tree

end ByteLayout
