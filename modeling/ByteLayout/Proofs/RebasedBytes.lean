import ByteLayout.Proofs.ProgramSystem
import ByteLayout.Proofs.SteadyTransfer
import ByteLayout.Proofs.TreeOfEntries

/-! # Bytes that are moved

The wildcard is written as minus one, the number just before byte zero. Moving a path or the bytes of
a window adds numbers to first hops, and a sum that stands for no hop is refused. A sum of exactly
minus one stands for one: a byte that is moved to the place just before byte zero is taken for every
byte. This is the only sum at which that happens, so bytes stay bytes wherever the target of a window
is not negative. -/

namespace ByteLayout

namespace Path

/-- A number at the place of the first hop is read as a hop or refused. -/
theorem withFirst_cases (n : Int) (rest : List Hop) :
    (∃ hop : Hop, hop.toInt = n ∧ withFirst n rest = .ok ⟨hop, rest⟩) ∨
      (n < -1 ∧ withFirst n rest = .error (.belowWildcard n (.int n :: data rest))) := by
  by_cases low : n < -1
  · exact Or.inr ⟨low, by simp [withFirst, Hop.ofInt?, low]⟩
  · obtain ⟨hop, rfl⟩ := Hop.exists_toInt_eq (Int.not_lt.mp low)
    exact Or.inl ⟨hop, rfl, withFirst_toInt hop rest⟩

/-- A path that starts at a byte is moved to the sum, or it is refused. -/
theorem rebaseFirst_cases {p : Path} {n : Nat} (first : p.first = .byte n) (delta : Int) :
    (∃ k : Nat, (k : Int) = n + delta ∧ p.rebaseFirst delta = .ok ⟨.byte k, p.rest⟩) ∨
    (n + delta = -1 ∧ p.rebaseFirst delta = .ok ⟨.any, p.rest⟩) ∨
    (n + delta < -1 ∧ ∃ hops, p.rebaseFirst delta = .error (.belowWildcard (n + delta) hops)) := by
  simp only [rebaseFirst, first]
  rcases withFirst_cases (n + delta) p.rest with ⟨hop, same, ok⟩ | ⟨low, failed⟩
  · cases hop with
    | any => exact Or.inr (Or.inl ⟨same.symm, ok⟩)
    | byte k => exact Or.inl ⟨k, same, ok⟩
  · exact Or.inr (Or.inr ⟨low, _, failed⟩)

/-- The number at which a first hop comes to stand when a window of `size` bytes that starts at
`offset` is moved to `target`; a size of minus one stands for no bound. -/
inductive Lands (offset size target : Int) : Hop → Int → Prop where
  | stays (unbounded : size = -1) : Lands offset size target .any (-1)
  | starts (bounded : size ≠ -1) : Lands offset size target .any target
  | moves {n : Nat} (reached : offset ≤ n) (within : size = -1 ∨ n < offset + size) :
      Lands offset size target (.byte n) (n - offset + target)

variable {offset size target : Int}

theorem Lands.unique {hop : Hop} {m m' : Int} (lands : Lands offset size target hop m)
    (lands' : Lands offset size target hop m') : m = m' := by
  cases lands with
  | stays unbounded =>
    cases lands' with
    | stays => rfl
    | starts bounded => exact absurd unbounded bounded
  | starts bounded =>
    cases lands' with
    | stays unbounded => exact absurd unbounded bounded
    | starts => rfl
  | moves =>
    cases lands'
    rfl

/-- Only wildcards and the byte whose sum is minus one land where the wildcard is written. -/
theorem lands_at_wildcard {hop : Hop} (lands : Lands offset size target hop Hop.any.toInt) :
    hop = .any ∨ ∃ n : Nat, hop = .byte n ∧ offset ≤ n ∧ (size = -1 ∨ n < offset + size) ∧
      n - offset + target = -1 := by
  generalize number : Hop.any.toInt = m at lands
  cases lands with
  | stays => exact Or.inl rfl
  | starts => exact Or.inl rfl
  | moves reached within => exact Or.inr ⟨_, rfl, reached, within, number.symm⟩

theorem outside_window_iff {n : Nat} :
    (n < offset || !(Extent.ofInt size).reaches (n - offset)) = true ↔
      ¬ (offset ≤ n ∧ (size = -1 ∨ n < offset + size)) := by
  unfold Extent.ofInt
  split
  · next unbounded =>
    simp only [Extent.reaches, Bool.not_true, Bool.or_false, decide_eq_true_eq]
    omega
  · next bounded =>
    simp only [Extent.reaches, Bool.or_eq_true, Bool.not_eq_true', decide_eq_true_eq,
      decide_eq_false_iff_not]
    omega

/-- A path has no place in the window, or its first hop is replaced by what stands for the number at
which it lands, or there is no hop for this number. -/
theorem inWindow?_cases (offset size target : Int) (p : Path) :
    ((∀ m, ¬ Lands offset size target p.first m) ∧
      p.inWindow? offset (.ofInt size) target = .ok none) ∨
    (∃ hop : Hop, Lands offset size target p.first hop.toInt ∧
      p.inWindow? offset (.ofInt size) target = .ok (some ⟨hop, p.rest⟩)) ∨
    ∃ m, Lands offset size target p.first m ∧ m < -1 ∧
      p.inWindow? offset (.ofInt size) target =
        .error (.belowWildcard m (.int m :: data p.rest)) := by
  obtain ⟨first, rest⟩ := p
  -- Where the number is put in place of the first hop, only the number matters.
  have placed {m : Int} (lands : Lands offset size target first m)
      (same : inWindow? offset (.ofInt size) target ⟨first, rest⟩ = some <$> withFirst m rest) :
      (∃ hop : Hop, Lands offset size target first hop.toInt ∧
        inWindow? offset (.ofInt size) target ⟨first, rest⟩ = .ok (some ⟨hop, rest⟩)) ∨
      ∃ m, Lands offset size target first m ∧ m < -1 ∧
        inWindow? offset (.ofInt size) target ⟨first, rest⟩ =
          .error (.belowWildcard m (.int m :: data rest)) := by
    rw [same]
    rcases withFirst_cases m rest with ⟨hop, rfl, ok⟩ | ⟨low, failed⟩
    · exact Or.inl ⟨hop, lands, by rw [ok]; rfl⟩
    · exact Or.inr ⟨m, lands, low, by rw [failed]; rfl⟩
  cases first with
  | any =>
    right
    by_cases unbounded : size = -1
    · refine Or.inl ⟨.any, .stays unbounded, ?_⟩
      simp [inWindow?, Extent.ofInt, unbounded]
    · refine placed (.starts unbounded) ?_
      simp only [inWindow?, Extent.ofInt, if_neg unbounded]
      rfl
  | byte n =>
    by_cases inside : offset ≤ n ∧ (size = -1 ∨ n < offset + size)
    · have taken := mt outside_window_iff.mp (Classical.not_not.mpr inside)
      refine Or.inr (placed (.moves inside.1 inside.2) ?_)
      simp only [inWindow?, if_neg taken]
      rfl
    · refine Or.inl ⟨?_, ?_⟩
      · intro m lands
        cases lands with
        | moves reached within => exact inside ⟨reached, within⟩
      · simp only [inWindow?, if_pos (outside_window_iff.mpr inside)]

end Path

namespace Tree

variable {t u : Tree} {p q : Path} {tag : Tag} {offset size target : Int}

/-- An entry at its place in a window, if it has one there. -/
def placed (offset size target : Int) (e : Path × Tag) : Except Path.Fault (Option (Path × Tag)) := do
  let place ← e.1.inWindow? offset (.ofInt size) target
  return place.map fun p => (p, e.2)

theorem window_eq (offset size target : Int) (t : Tree) :
    t.window offset (.ofInt size) target = do
      let places ← t.entries.mapM (placed offset size target)
      return ofEntries .distinct (places.filterMap id) := rfl

/-- An entry has no place in a window, or its place starts with the number at which its first hop
lands, or this number is below minus one. -/
theorem placed_cases (offset size target : Int) (p : Path) (tag : Tag) :
    ((∀ m, ¬ Path.Lands offset size target p.first m) ∧ placed offset size target (p, tag) = .ok none) ∨
    (∃ hop : Hop, Path.Lands offset size target p.first hop.toInt ∧
      placed offset size target (p, tag) = .ok (some (⟨hop, p.rest⟩, tag))) ∨
    ∃ m, Path.Lands offset size target p.first m ∧ m < -1 ∧
      placed offset size target (p, tag) = .error (.belowWildcard m (.int m :: Path.data p.rest)) := by
  unfold placed
  rcases Path.inWindow?_cases offset size target p with
    ⟨nowhere, same⟩ | ⟨hop, lands, same⟩ | ⟨m, lands, low, same⟩ <;> rw [same]
  · exact Or.inl ⟨nowhere, rfl⟩
  · exact Or.inr (Or.inl ⟨hop, lands, rfl⟩)
  · exact Or.inr (Or.inr ⟨m, lands, low, rfl⟩)

/-- A window is refused only where a first hop lands below minus one. -/
theorem lands_of_window_eq_error {fault : Path.Fault}
    (failed : t.window offset (.ofInt size) target = .error fault) :
    ∃ p tag m, t.get? p = some tag ∧ Path.Lands offset size target p.first m ∧ m < -1 ∧
      fault = .belowWildcard m (.int m :: Path.data p.rest) := by
  rw [window_eq] at failed
  cases moved : t.entries.mapM (placed offset size target) with
  | ok places =>
    rw [moved] at failed
    cases failed
  | error reason =>
    rw [moved] at failed
    cases failed
    obtain ⟨before, ⟨p, tag⟩, after, cut, -, refused⟩ := exists_first_of_mapM_eq_error moved
    have found : t.get? p = some tag := mem_entries_iff.mp (by simp [cut])
    rcases placed_cases offset size target p tag with
      ⟨-, ok⟩ | ⟨hop, -, ok⟩ | ⟨m, lands, low, error⟩
    · rw [ok] at refused
      cases refused
    · rw [ok] at refused
      cases refused
    · rw [error] at refused
      cases refused
      exact ⟨p, tag, m, found, lands, low, rfl⟩

theorem exists_places_of_window (ok : t.window offset (.ofInt size) target = .ok u) :
    ∃ places, t.entries.mapM (placed offset size target) = .ok places ∧
      u = ofEntries .distinct (places.filterMap id) := by
  rw [window_eq] at ok
  cases moved : t.entries.mapM (placed offset size target) with
  | error reason =>
    rw [moved] at ok
    cases ok
  | ok places =>
    rw [moved] at ok
    cases ok
    exact ⟨places, rfl, rfl⟩

/-- What has a place in a window is found there. -/
theorem covers_of_lands (ok : t.window offset (.ofInt size) target = .ok u)
    (found : t.get? p = some tag) {m : Int} (lands : Path.Lands offset size target p.first m) :
    ∃ hop : Hop, hop.toInt = m ∧ u.Covers .distinct ⟨hop, p.rest⟩ tag := by
  obtain ⟨places, moved, rfl⟩ := exists_places_of_window ok
  obtain ⟨place, member, at_⟩ := (mem_of_mapM_eq_ok moved).1 (p, tag) (mem_entries_iff.mpr found)
  rcases placed_cases offset size target p tag with
    ⟨nowhere, -⟩ | ⟨hop, lands', put⟩ | ⟨_, -, -, refused⟩
  · exact absurd lands (nowhere m)
  · rw [put] at at_
    cases at_
    have listed : (⟨hop, p.rest⟩, tag) ∈ places.filterMap id :=
      List.mem_filterMap.mpr ⟨_, member, rfl⟩
    refine ⟨hop, lands'.unique lands, ?_⟩
    exact (ofEntries_below_iff (wellFormed_ofEntries _ _) _).mp (below_refl .distinct _) _ listed
  · rw [refused] at at_
    cases at_

/-- What is found in a window has come from where its first hop lands. -/
theorem exists_lands_of_get? (ok : t.window offset (.ofInt size) target = .ok u)
    (found : u.get? q = some tag) :
    ∃ p given, t.get? p = some given ∧ p.rest = q.rest ∧
      Path.Lands offset size target p.first q.first.toInt := by
  obtain ⟨places, moved, rfl⟩ := exists_places_of_window ok
  obtain ⟨given, listed⟩ := exists_mem_of_get?_ofEntries found
  obtain ⟨place, member, same⟩ := List.mem_filterMap.mp listed
  cases same
  obtain ⟨⟨p, own⟩, among, at_⟩ := (mem_of_mapM_eq_ok moved).2 _ member
  rcases placed_cases offset size target p own with
    ⟨-, nothing⟩ | ⟨hop, lands, put⟩ | ⟨_, -, -, refused⟩
  · rw [nothing] at at_
    cases at_
  · rw [put] at at_
    cases at_
    exact ⟨p, _, mem_entries_iff.mp among, rfl, lands⟩
  · rw [refused] at at_
    cases at_

/-- A byte that is moved stays a byte or is refused, unless the sum is exactly minus one: then it
becomes the wildcard. This holds of a single path and of every byte that a window takes up. So the
wildcards of a window were wildcards before, or come from such a byte. -/
theorem moved_bytes_stay_bytes_unless_just_before_first (p : Path) (delta : Int) (t : Tree)
    (offset size target : Int) :
    (∀ n : Nat, p.first = .byte n →
      (∃ k : Nat, (k : Int) = n + delta ∧ p.rebaseFirst delta = .ok ⟨.byte k, p.rest⟩) ∨
      (n + delta = -1 ∧ p.rebaseFirst delta = .ok ⟨.any, p.rest⟩) ∨
      (n + delta < -1 ∧ ∃ hops, p.rebaseFirst delta = .error (.belowWildcard (n + delta) hops))) ∧
    ((∃ q tag m, t.get? q = some tag ∧ Path.Lands offset size target q.first m ∧ m < -1 ∧
        t.window offset (.ofInt size) target =
          .error (.belowWildcard m (.int m :: Path.data q.rest))) ∨
      ∃ u, t.window offset (.ofInt size) target = .ok u ∧
        (∀ q tag, ∀ n : Nat, t.get? q = some tag → q.first = .byte n → offset ≤ n →
          (size = -1 ∨ n < offset + size) →
          (∃ k : Nat, (k : Int) = n - offset + target ∧ u.Covers .distinct ⟨.byte k, q.rest⟩ tag) ∨
          (n - offset + target = -1 ∧ u.Covers .distinct ⟨.any, q.rest⟩ tag)) ∧
        ∀ r tag, u.get? r = some tag → r.first = .any →
          ∃ q given, t.get? q = some given ∧ q.rest = r.rest ∧
            (q.first = .any ∨ ∃ n : Nat, q.first = .byte n ∧ offset ≤ n ∧
              (size = -1 ∨ n < offset + size) ∧ n - offset + target = -1)) := by
  constructor
  · intro n first
    exact Path.rebaseFirst_cases first delta
  · cases ok : t.window offset (.ofInt size) target with
    | error fault =>
      obtain ⟨q, tag, m, found, lands, low, rfl⟩ := lands_of_window_eq_error ok
      exact Or.inl ⟨q, tag, m, found, lands, low, rfl⟩
    | ok u =>
      refine Or.inr ⟨u, rfl, ?_, ?_⟩
      · intro q tag n found first reached within
        have lands : Path.Lands offset size target q.first (n - offset + target) :=
          first ▸ .moves reached within
        obtain ⟨hop, same, covered⟩ := covers_of_lands ok found lands
        cases hop with
        | any => exact Or.inr ⟨same.symm, covered⟩
        | byte k => exact Or.inl ⟨k, same, covered⟩
      · intro r tag found wild
        obtain ⟨q, given, stored, rest, lands⟩ := exists_lands_of_get? ok found
        refine ⟨q, given, stored, rest, ?_⟩
        rw [wild] at lands
        exact Path.lands_at_wildcard lands

/-- An object with a number at byte three, an address at byte eight and a float behind that. -/
def numberBeforeAddress : Tree := ofEntries .distinct
  [(⟨.byte 3, []⟩, .integer), (⟨.byte 8, []⟩, .pointer), (⟨.byte 8, [.any]⟩, .float .double)]

theorem first_of_numberBeforeAddress (found : numberBeforeAddress.get? p = some tag) :
    p.first = .byte 3 ∨ p.first = .byte 8 := by
  have all : numberBeforeAddress.entries.all
      (fun e => e.1.first = .byte 3 ∨ e.1.first = .byte 8) = true := by decide
  exact of_decide_eq_true (List.all_eq_true.mp all _ (mem_entries_iff.mpr found))

/-- The target lies two bytes before byte zero, but the number and the address lie further into the
window, so both stay bytes. -/
theorem moved_bytes_stay_bytes_unless_just_before_first_fields :
    (∃ k : Nat, (k : Int) = 8 + -8 ∧
      Path.rebaseFirst ⟨.byte 8, [.any]⟩ (-8) = .ok ⟨.byte k, [.any]⟩) ∧
    ∃ u, numberBeforeAddress.window 1 (.ofInt 8) (-2) = .ok u ∧
      (∃ k : Nat, (k : Int) = 3 - 1 + -2 ∧ u.Covers .distinct ⟨.byte k, []⟩ .integer) ∧
      (∃ k : Nat, (k : Int) = 8 - 1 + -2 ∧ u.Covers .distinct ⟨.byte k, [.any]⟩ (.float .double)) ∧
      ∀ q tag, u.get? q = some tag → q.first ≠ .any := by
  obtain ⟨path, refused | ⟨u, ok, kept, wild⟩⟩ :=
    moved_bytes_stay_bytes_unless_just_before_first ⟨.byte 8, [.any]⟩ (-8) numberBeforeAddress 1 8 (-2)
  · obtain ⟨p, tag, m, found, lands, low, -⟩ := refused
    rcases first_of_numberBeforeAddress found with first | first <;> rw [first] at lands <;>
      cases lands <;> omega
  · refine ⟨(path 8 rfl).resolve_right (by omega), u, ok, ?_, ?_, ?_⟩
    · exact (kept ⟨.byte 3, []⟩ .integer 3 (by decide) rfl (by decide) (by decide)).resolve_right
        (by omega)
    · exact (kept ⟨.byte 8, [.any]⟩ (.float .double) 8 (by decide) rfl (by decide)
        (by decide)).resolve_right (by omega)
    · intro q tag found first
      obtain ⟨p, given, stored, -, again | ⟨n, at_, -, -, sum⟩⟩ := wild q tag found first
      · rcases first_of_numberBeforeAddress stored with own | own <;> simp [own] at again
      · rcases first_of_numberBeforeAddress stored with own | own <;> rw [own] at at_ <;>
          cases at_ <;> omega

/-- A byte that is moved to the place just before byte zero is taken for every byte: the number of an
object without wildcards comes to stand for the whole object. -/
theorem wildcard_of_byte_just_before_first :
    Path.rebaseFirst ⟨.byte 0, [.byte 4]⟩ (-1) = .ok ⟨.any, [.byte 4]⟩ ∧
      (∀ p tag, numberBeforeAddress.get? p = some tag → p.first ≠ .any) ∧
      ∃ u, numberBeforeAddress.window 0 (.ofInt (-1)) (-4) = .ok u ∧
        u.get? .root = some .integer := by
  refine ⟨rfl, ?_, ?_⟩
  · intro p tag found
    rcases first_of_numberBeforeAddress found with first | first <;> simp [first]
  · have moved : (numberBeforeAddress.window 0 (.ofInt (-1)) (-4)).toOption.bind (·.get? .root) =
        some .integer := by decide
    obtain ⟨u, ok, found⟩ := Option.bind_eq_some_iff.mp moved
    exact ⟨u, eq_ok_of_toOption ok, found⟩

end Tree

end ByteLayout
