import ByteLayout.OrderedMap.Basic

/-! # Reading maps after each operation

One statement for every operation of `OrderedMap` says what `get?` reads afterwards. Equality with
`==` is agreement of all readings. -/

namespace ByteLayout.OrderedMap

variable {α β γ : Type}

theorem isEmpty_iff {m : OrderedMap α β} : m.isEmpty = true ↔ m = empty := by
  constructor
  · intro none
    obtain ⟨entries, distinct⟩ := m
    cases List.isEmpty_iff.mp none
    rfl
  · rintro rfl
    rfl

variable [DecidableEq α]

@[simp] theorem get?_empty (k : α) : (empty : OrderedMap α β).get? k = none := rfl

theorem readEntries_upsertEntries (k : α) (f : Option β → β) (l : List (α × β)) (k' : α) :
    readEntries k' (upsertEntries k f l) =
      if k' = k then some (f (readEntries k l)) else readEntries k' l := by
  induction l with
  | nil => by_cases same : k = k' <;> simp [upsertEntries, readEntries, same, eq_comm]
  | cons e rest ih =>
    by_cases found : e.1 = k
    · subst found
      by_cases same : e.1 = k'
      · simp [upsertEntries, readEntries, same]
      · simp [upsertEntries, readEntries, same, Ne.symm same]
    · by_cases head : e.1 = k'
      · subst head
        simp [upsertEntries, readEntries, found]
      · simp [upsertEntries, readEntries, found, head, ih]

@[simp] theorem get?_upsert (m : OrderedMap α β) (k : α) (f : Option β → β) (k' : α) :
    (m.upsert k f).get? k' = if k' = k then some (f (m.get? k)) else m.get? k' :=
  readEntries_upsertEntries k f m.entries k'

@[simp] theorem get?_insert (m : OrderedMap α β) (k : α) (v : β) (k' : α) :
    (m.insert k v).get? k' = if k' = k then some v else m.get? k' :=
  get?_upsert m k (fun _ => v) k'

theorem keys_upsert (m : OrderedMap α β) (k : α) (f : Option β → β) :
    (m.upsert k f).keys = if k ∈ m.keys then m.keys else m.keys ++ [k] :=
  map_fst_upsertEntries k f m.entries

theorem readEntries_of_mem {l : List (α × β)} (nodup : (l.map Prod.fst).Nodup) {k : α} {v : β}
    (member : (k, v) ∈ l) : readEntries k l = some v := by
  induction l with
  | nil => cases member
  | cons e rest ih =>
    rw [List.map_cons, List.nodup_cons] at nodup
    rcases List.mem_cons.mp member with same | later
    · subst same
      simp [readEntries]
    · have other : ¬ e.1 = k := by
        intro same
        exact nodup.1 (same ▸ List.mem_map.mpr ⟨(k, v), later, rfl⟩)
      simp [readEntries, other, ih nodup.2 later]

theorem mem_of_readEntries {l : List (α × β)} {k : α} {v : β} (found : readEntries k l = some v) :
    (k, v) ∈ l := by
  induction l with
  | nil => simp [readEntries] at found
  | cons e rest ih =>
    by_cases same : e.1 = k
    · subst same
      simp only [readEntries, if_true, Option.some.injEq] at found
      subst found
      exact List.mem_cons_self
    · simp only [readEntries, if_neg same] at found
      exact List.mem_cons_of_mem _ (ih found)

/-- The entries are the readings. -/
theorem mem_entries_iff {m : OrderedMap α β} {k : α} {v : β} :
    (k, v) ∈ m.entries ↔ m.get? k = some v :=
  ⟨readEntries_of_mem m.nodup, mem_of_readEntries⟩

theorem mem_keys_iff {m : OrderedMap α β} {k : α} : k ∈ m.keys ↔ (m.get? k).isSome := by
  constructor
  · intro member
    obtain ⟨⟨k', v⟩, stored, same⟩ := List.mem_map.mp member
    subst same
    rw [mem_entries_iff.mp stored, Option.isSome_some]
  · intro stored
    obtain ⟨v, found⟩ := Option.isSome_iff_exists.mp stored
    exact List.mem_map.mpr ⟨(k, v), mem_entries_iff.mpr found, rfl⟩

theorem isEmpty_iff_get? {m : OrderedMap α β} : m.isEmpty = true ↔ ∀ k, m.get? k = none := by
  constructor
  · intro none k
    rw [isEmpty_iff.mp none, get?_empty]
  · intro missing
    refine List.isEmpty_iff.mpr (List.eq_nil_iff_forall_not_mem.mpr fun e member => ?_)
    have found := mem_entries_iff.mp member
    rw [missing e.1] at found
    cases found

@[simp] theorem get?_map (f : α → β → γ) (m : OrderedMap α β) (k : α) :
    (m.map f).get? k = (m.get? k).map (f k) := by
  obtain ⟨l, nodup⟩ := m
  change readEntries k (l.map fun e => (e.1, f e.1 e.2)) = (readEntries k l).map (f k)
  clear nodup
  induction l with
  | nil => rfl
  | cons e rest ih =>
    by_cases same : e.1 = k
    · subst same
      simp [readEntries]
    · simp [readEntries, same, ih]

@[simp] theorem get?_filter (keep : α → β → Bool) (m : OrderedMap α β) (k : α) :
    (m.filter keep).get? k = (m.get? k).filter (keep k) := by
  apply Option.ext
  intro v
  rw [Option.filter_eq_some_iff, ← mem_entries_iff, ← mem_entries_iff]
  change (k, v) ∈ m.entries.filter _ ↔ _
  rw [List.mem_filter]

theorem isSubmapOf_iff [DecidableEq β] {a b : OrderedMap α β} :
    a.isSubmapOf b = true ↔ ∀ k v, a.get? k = some v → b.get? k = some v := by
  simp only [isSubmapOf, List.all_eq_true, decide_eq_true_eq]
  constructor
  · intro all k v found
    exact all (k, v) (mem_entries_iff.mpr found)
  · rintro sub ⟨k, v⟩ member
    exact sub k v (mem_entries_iff.mp member)

/-- Two maps are equal when they give the same readings. -/
theorem beq_iff [DecidableEq β] {a b : OrderedMap α β} :
    (a == b) = true ↔ ∀ k, a.get? k = b.get? k := by
  change (a.isSubmapOf b && b.isSubmapOf a) = true ↔ _
  rw [Bool.and_eq_true, isSubmapOf_iff, isSubmapOf_iff]
  constructor
  · rintro ⟨sub, sup⟩ k
    exact Option.ext fun v => ⟨sub k v, sup k v⟩
  · intro agree
    exact ⟨fun k v found => agree k ▸ found, fun k v found => (agree k).symm ▸ found⟩

end ByteLayout.OrderedMap
