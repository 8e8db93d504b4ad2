/-! # Maps in order of first insertion

A finite map whose entries stand in the order in which their keys were first inserted. Replacing a
value keeps the place of its key. The map is read through `get?`; two maps with the same readings
are equal for `==`, whatever the order of their entries. -/

namespace ByteLayout

/-- A finite map that keeps its keys in the order of their first insertion. -/
structure OrderedMap (α β : Type) where
  entries : List (α × β)
  nodup : (entries.map Prod.fst).Nodup

namespace OrderedMap

variable {α β γ : Type}

/-- The map without entries. -/
def empty : OrderedMap α β := ⟨[], by simp⟩

instance : EmptyCollection (OrderedMap α β) := ⟨empty⟩

instance : Inhabited (OrderedMap α β) := ⟨empty⟩

/-- The keys, in order of first insertion. -/
def keys (m : OrderedMap α β) : List α := m.entries.map Prod.fst

/-- The number of keys. -/
def size (m : OrderedMap α β) : Nat := m.entries.length

/-- A map is empty when it has no entries. -/
def isEmpty (m : OrderedMap α β) : Bool := m.entries.isEmpty

/-- Every value is replaced by its image; keys and places stay. -/
def map (f : α → β → γ) (m : OrderedMap α β) : OrderedMap α γ :=
  ⟨m.entries.map fun e => (e.1, f e.1 e.2), by
    have keys_eq : (m.entries.map fun e => (e.1, f e.1 e.2)).map Prod.fst =
        m.entries.map Prod.fst := by
      rw [List.map_map]; rfl
    rw [keys_eq]; exact m.nodup⟩

/-- The entries that pass the test, in their old order. -/
def filter (keep : α → β → Bool) (m : OrderedMap α β) : OrderedMap α β :=
  ⟨m.entries.filter fun e => keep e.1 e.2,
    m.nodup.sublist (List.Sublist.map Prod.fst List.filter_sublist)⟩

variable [DecidableEq α]

/-- The value of the first entry with a given key. -/
def readEntries (k : α) : List (α × β) → Option β
  | [] => none
  | e :: rest => if e.1 = k then some e.2 else readEntries k rest

/-- The value stored at a key. -/
def get? (m : OrderedMap α β) (k : α) : Option β := readEntries k m.entries

/-- Whether a key is stored. -/
def contains (m : OrderedMap α β) (k : α) : Bool := (m.get? k).isSome

/-- The entry list with the value at `k` replaced by `f` of the old one, or appended at the end. -/
def upsertEntries (k : α) (f : Option β → β) : List (α × β) → List (α × β)
  | [] => [(k, f none)]
  | e :: rest => if e.1 = k then (k, f (some e.2)) :: rest else e :: upsertEntries k f rest

theorem map_fst_upsertEntries (k : α) (f : Option β → β) (l : List (α × β)) :
    (upsertEntries k f l).map Prod.fst =
      if k ∈ l.map Prod.fst then l.map Prod.fst else l.map Prod.fst ++ [k] := by
  induction l with
  | nil => simp [upsertEntries]
  | cons e rest ih =>
    by_cases same : e.1 = k
    · simp [upsertEntries, same]
    · have other : ¬ k = e.1 := fun h => same h.symm
      by_cases member : k ∈ rest.map Prod.fst
      · have found : k ∈ (e :: rest).map Prod.fst := List.mem_cons_of_mem _ member
        rw [if_pos found]
        simp only [upsertEntries, if_neg same, List.map_cons, ih, if_pos member]
      · have absent : k ∉ (e :: rest).map Prod.fst := by
          rw [List.map_cons, List.mem_cons]
          exact fun h => h.elim other member
        rw [if_neg absent]
        simp only [upsertEntries, if_neg same, List.map_cons, ih, if_neg member, List.cons_append]

/-- The value at `k` becomes `f` of what was stored there. A new key takes the last place. -/
def upsert (m : OrderedMap α β) (k : α) (f : Option β → β) : OrderedMap α β :=
  ⟨upsertEntries k f m.entries, by
    rw [map_fst_upsertEntries]
    by_cases member : k ∈ m.entries.map Prod.fst
    · rw [if_pos member]; exact m.nodup
    · rw [if_neg member, List.nodup_append]
      refine ⟨m.nodup, by simp, ?_⟩
      intro a memA b memB same
      rw [List.mem_singleton] at memB
      exact member (memB ▸ same ▸ memA)⟩

/-- The value at `k` becomes `v`. -/
def insert (m : OrderedMap α β) (k : α) (v : β) : OrderedMap α β := m.upsert k fun _ => v

/-- The map of a list of pairs: a repeated key keeps its first place and takes its last value. -/
def ofList (l : List (α × β)) : OrderedMap α β :=
  l.foldl (fun m e => m.insert e.1 e.2) empty

/-- Every entry of `a` is an entry of `b`. -/
def isSubmapOf [DecidableEq β] (a b : OrderedMap α β) : Bool :=
  a.entries.all fun e => decide (b.get? e.1 = some e.2)

/-- Equality that does not look at the order of the entries. -/
instance [DecidableEq β] : BEq (OrderedMap α β) := ⟨fun a b => a.isSubmapOf b && b.isSubmapOf a⟩

end OrderedMap

end ByteLayout
