import ByteLayout.Proofs.PointerMoves

/-! # Trees at another root

Putting a value into memory and taking a value out of it change first hops, and entries that come to
stand at the same path are joined. Where all entries of a tree start with the same hop, no two of them
meet, so a load takes exactly that value out of memory which a store has put there.

Entries may meet where first hops differ. Even then a tree that lies below another one still does so
at the new root: whatever hides an entry in the larger tree is moved along with it. Only going through
a pointer can leave behind what hides its pointee, and that is the pointer itself when it is opaque. -/

namespace ByteLayout

namespace Tree

variable {a b t memory : Tree} {p q : Path} {tag : Tag} {hop new : Hop} {g : Hop → Option Hop}
  {size : Nat}

/-! ## Storing and loading -/

/-- All entries start with the same hop. -/
def AllStartAt (hop : Hop) (t : Tree) : Prop := ∀ p tag, t.get? p = some tag → p.first = hop

theorem AllStartAt.eq_of_startsAt (alike : t.AllStartAt hop) (starts : t.startsAt new = true) :
    new = hop := by
  obtain ⟨p, tag, found, first⟩ := startsAt_iff.mp starts
  rw [← first]
  exact alike p tag found

/-- Changing the one first hop of a tree changes nothing else. -/
theorem AllStartAt.get?_moved_eq_some_iff (alike : t.AllStartAt hop) (wf : t.WellFormed)
    (moves : g hop = some new) :
    (t.moved (Path.mapFirst? g)).get? q = some tag ↔
      q.first = new ∧ t.get? ⟨hop, q.rest⟩ = some tag := by
  have faithful : Faithful (Path.mapFirst? g) t :=
    faithful_mapFirst? fun hop hop' _ starts starts' _ _ =>
      (alike.eq_of_startsAt starts).trans (alike.eq_of_startsAt starts').symm
  rw [faithful.get?_moved_eq_some_iff wf]
  constructor
  · rintro ⟨p, found, placed⟩
    obtain ⟨first, rest⟩ := Path.mapFirst?_eq_some_iff.mp placed
    have same : p.first = hop := alike p tag found
    rw [same, moves, Option.some.injEq] at first
    rw [← rest, ← same]
    exact ⟨first.symm, found⟩
  · rintro ⟨first, found⟩
    refine ⟨⟨hop, q.rest⟩, found, Path.mapFirst?_eq_some_iff.mpr ⟨?_, rfl⟩⟩
    rw [moves, first]

/-- A value is held in memory from byte zero on. -/
theorem AllStartAt.get?_toMemory_eq_some_iff (value : t.AllStartAt .any) (wf : t.WellFormed) :
    t.toMemory.get? q = some tag ↔ q.first = .byte 0 ∧ t.get? ⟨.any, q.rest⟩ = some tag := by
  rw [toMemory_eq]
  exact value.get?_moved_eq_some_iff wf rfl

/-- Memory that holds one object from byte zero on is loaded as a whole, whatever the size. -/
theorem AllStartAt.get?_read_eq_some_iff (object : memory.AllStartAt (.byte 0))
    (wf : memory.WellFormed) (positive : 0 < size) :
    (memory.read size).get? q = some tag ↔
      q.first = .any ∧ memory.get? ⟨.byte 0, q.rest⟩ = some tag := by
  have one : memory.LoadsOne size := by
    rintro ⟨-, inside⟩
    obtain ⟨k, later, -, starts⟩ := startsInside_iff.mp inside
    have zero : k = 0 := Hop.byte.inj (object.eq_of_startsAt starts)
    omega
  rw [beq_iff.mp (read_beq_moved one) q]
  apply object.get?_moved_eq_some_iff wf
  simp [loadedHop?, positive]

theorem pointee_pointerTo_beq (wf : memory.WellFormed) :
    ((pointerTo memory).pointee 0 == memory) = true := by
  rw [beq_iff]
  intro p
  rw [get?_pointee_pointerTo wf, Path.advance_zero]

theorem loaded_stored_beq (value : t.AllStartAt .any) (wf : t.WellFormed) (positive : 0 < size) :
    (t.stored.loaded size == t) = true := by
  have wfMemory : t.toMemory.WellFormed := wellFormed_ofEntries _ _
  have same := beq_iff.mp (pointee_pointerTo_beq wfMemory)
  have object : ((pointerTo t.toMemory).pointee 0).AllStartAt (.byte 0) := by
    intro p tag found
    rw [same, value.get?_toMemory_eq_some_iff wf] at found
    exact found.1
  rw [beq_iff]
  intro p
  apply Option.ext
  intro tag
  rw [loaded, stored, object.get?_read_eq_some_iff (wellFormed_pointee 0 _) positive, same,
    value.get?_toMemory_eq_some_iff wf]
  constructor
  · rintro ⟨first, -, found⟩
    rwa [← first] at found
  · intro found
    have first : p.first = .any := value p tag found
    refine ⟨first, rfl, ?_⟩
    rwa [← first]

/-- Going through a pointer to some memory leads back to that memory, and a load through a pointer
through which a value was stored yields that value, however many bytes are loaded. -/
theorem load_undoes_store {memory value : Tree} {size : Int} (wfMemory : memory.WellFormed)
    (wfValue : value.WellFormed) (first : ∀ p tag, value.get? p = some tag → p.first = .any)
    (positive : 1 ≤ size) :
    (∃ pointee, (pointerTo memory).pointeeFrom 0 = .ok pointee ∧ (pointee == memory) = true) ∧
      ∃ loaded, Transfer.loadedBytes size [stored value] = .ok loaded ∧
        (loaded == value) = true := by
  have allowed : ¬ size ≤ 0 := by omega
  have bytes : 0 < size.toNat := by omega
  constructor
  · exact ⟨_, rfl, pointee_pointerTo_beq wfMemory⟩
  · refine ⟨value.stored.loaded size.toNat, ?_, loaded_stored_beq first wfValue bytes⟩
    simp only [Transfer.loadedBytes, Transfer.unary, readBytes, if_neg allowed]
    rfl

/-- An address of a number and of an opaque object behind another address. -/
def addressOfFields : Tree := ofEntries .distinct
  [(.root, .pointer), (⟨.any, [.any]⟩, .integer), (⟨.any, [.byte 8]⟩, .pointer),
    (⟨.any, [.byte 8, .byte 0]⟩, .anything)]

/-- Memory in which byte zero holds a number and byte eight an address. -/
def mixedMemory : Tree := ofEntries .distinct
  [(.root, .float .half), (⟨.byte 0, []⟩, .integer), (⟨.byte 8, []⟩, .pointer),
    (⟨.byte 8, [.any]⟩, .float .double)]

/-- A single byte is enough to load the address with all that lies behind it. -/
theorem load_undoes_store_fields :
    mixedMemory.WellFormed ∧ addressOfFields.WellFormed ∧
      (∀ p tag, addressOfFields.get? p = some tag → p.first = .any) ∧
      (∃ pointee, (pointerTo mixedMemory).pointeeFrom 0 = .ok pointee ∧
        (pointee == mixedMemory) = true) ∧
      ∃ loaded, Transfer.loadedBytes 1 [stored addressOfFields] = .ok loaded ∧
        (loaded == addressOfFields) = true := by
  have first : ∀ p tag, addressOfFields.get? p = some tag → p.first = .any := by
    intro p tag found
    have all : addressOfFields.entries.all (fun e => e.1.first = .any) = true := by decide
    exact of_decide_eq_true (List.all_eq_true.mp all _ (mem_entries_iff.mpr found))
  exact ⟨wellFormed_ofEntries _ _, wellFormed_ofEntries _ _, first,
    load_undoes_store (wellFormed_ofEntries _ _) (wellFormed_ofEntries _ _) first (Int.le_refl 1)⟩

/-! ## The order at another root -/

theorem not_unified : Policy.distinct ≠ .unified := by decide

/-- Both trees can be moved, and what becomes of the first one lies below what becomes of the second. -/
def StayOrdered {ε : Type} (move : Tree → Except ε Tree) (a b : Tree) : Prop :=
  ∃ a' b', move a = .ok a' ∧ move b = .ok b' ∧ (lattice .distinct).leq a' b' = true

theorem StayOrdered.of_below {ε : Type} {move : Tree → Except ε Tree} {a b a' b' : Tree}
    (movedA : move a = .ok a') (movedB : move b = .ok b') (wf : b'.WellFormed)
    (below : a'.Below .distinct b') : StayOrdered move a b :=
  ⟨a', b', movedA, movedB, (leq_iff wf).mpr below⟩

theorem underOffset_toInt (hop : Hop) (t : Tree) : t.underOffset hop.toInt = .ok (t.under hop) := by
  simp only [underOffset, Hop.ofInt?_eq_some_iff.mpr rfl]

theorem stayOrdered_underOffset (wf : b.WellFormed) (below : a.Below .distinct b) {n : Int}
    (low : -1 ≤ n) : StayOrdered (underOffset n) a b := by
  obtain ⟨hop, rfl⟩ := Hop.exists_toInt_eq low
  exact .of_below (underOffset_toInt hop a) (underOffset_toInt hop b) (wellFormed_under hop wf)
    (under_below hop below)

theorem stayOrdered_window (wf : a.WellFormed) (below : a.Below .distinct b) (offset : Int)
    (extent : Extent) {target : Int} (low : 0 ≤ target) :
    StayOrdered (window offset extent target) a b := by
  obtain ⟨n, rfl⟩ := Int.eq_ofNat_of_zero_le low
  exact .of_below (window_natCast offset extent n a) (window_natCast offset extent n b)
    (wellFormed_ofEntries _ _) (moved_below wf below (tracks_mapFirst? _ b) (absurd · not_unified))

theorem stayOrdered_pointeeFrom (wf : a.WellFormed) (below : a.Below .distinct b)
    (transparent : b.Transparent) {base : Int} (low : 0 ≤ base) :
    StayOrdered (pointeeFrom base) a b := by
  have entered (t : Tree) : t.pointeeFrom base = .ok (t.pointee base.toNat) := by
    simp only [pointeeFrom, if_neg (Int.not_lt.mpr low)]
  exact .of_below (entered a) (entered b) (wellFormed_pointee _ b)
    (pointee_below base.toNat wf below transparent (absurd · not_unified))

/-- Where integers and pointers are distinct, changes of the root respect the order of trees: putting
a value into memory, one more hop before every path, moving the bytes of a window, and storing a
value. So does going through a pointer unless the larger tree is opaque at the value itself or at byte
zero. -/
theorem rerooting_respects_order {a b : Tree} (wfA : a.WellFormed) (wfB : b.WellFormed)
    (ordered : (lattice .distinct).leq a b = true) :
    (lattice .distinct).leq a.toMemory b.toMemory = true ∧
    (∀ hop : Int, -1 ≤ hop → StayOrdered (underOffset hop) a b) ∧
    (∀ offset size target : Int, 0 ≤ target →
      StayOrdered (window offset (.ofInt size) target) a b) ∧
    (lattice .distinct).leq a.stored b.stored = true ∧
    (b.tag .root ≠ .anything → b.tag ⟨.byte 0, []⟩ ≠ .anything →
      ∀ base : Int, 0 ≤ base → StayOrdered (pointeeFrom base) a b) := by
  have below : a.Below .distinct b := (leq_iff wfB).mp ordered
  refine ⟨?_, ?_, ?_, ?_, ?_⟩
  · exact (leq_iff (wellFormed_ofEntries _ _)).mpr (toMemory_below wfA below (absurd · not_unified))
  · intro hop low
    exact stayOrdered_underOffset wfB below low
  · intro offset size target low
    exact stayOrdered_window wfA below offset _ low
  · exact (leq_iff (wellFormed_merge _ _ _)).mpr (stored_below wfA below (absurd · not_unified))
  · intro whole zero base low
    exact stayOrdered_pointeeFrom wfA below ⟨whole, zero⟩ low

/-- An address of a field that holds `inner` with a float behind it, beside a number at byte zero. -/
def addressBesideNumber (inner : Tag) : Tree := ofEntries .distinct
  [(.root, .pointer), (⟨.any, [.byte 8]⟩, inner), (⟨.any, [.byte 8, .byte 0]⟩, .float .double),
    (⟨.byte 0, [.byte 8]⟩, .integer)]

/-- The float lies behind an address in one tree and is hidden in the other one. The number meets that
address or what hides the float when the value is put into memory and when its pointee is entered. -/
theorem rerooting_respects_order_hidden :
    (addressBesideNumber .pointer).WellFormed ∧ (addressBesideNumber .anything).WellFormed ∧
      (lattice .distinct).leq (addressBesideNumber .pointer) (addressBesideNumber .anything) = true ∧
      (lattice .distinct).leq (addressBesideNumber .pointer).toMemory
        (addressBesideNumber .anything).toMemory = true ∧
      StayOrdered (underOffset 4) (addressBesideNumber .pointer) (addressBesideNumber .anything) ∧
      StayOrdered (window 0 (.ofInt 4) 16) (addressBesideNumber .pointer)
        (addressBesideNumber .anything) ∧
      (lattice .distinct).leq (addressBesideNumber .pointer).stored
        (addressBesideNumber .anything).stored = true ∧
      StayOrdered (pointeeFrom 8) (addressBesideNumber .pointer) (addressBesideNumber .anything) := by
  have wfA : (addressBesideNumber .pointer).WellFormed := wellFormed_ofEntries _ _
  have wfB : (addressBesideNumber .anything).WellFormed := wellFormed_ofEntries _ _
  have ordered : (lattice .distinct).leq (addressBesideNumber .pointer)
      (addressBesideNumber .anything) = true := by decide
  obtain ⟨memory, wrapped, windows, stored, entered⟩ := rerooting_respects_order wfA wfB ordered
  exact ⟨wfA, wfB, ordered, memory, wrapped 4 (by decide), windows 0 4 16 (by decide), stored,
    entered (by decide) (by decide) 8 (by decide)⟩

end Tree

end ByteLayout
