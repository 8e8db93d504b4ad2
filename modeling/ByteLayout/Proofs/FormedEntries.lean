import ByteLayout.Proofs.Join
import ByteLayout.Tree.Rerooting

/-! # Entries that are in form already

Entries with different paths, none of them unknown and none but pointers on the way to others, can be
stored as they are: their tree holds exactly them. A well-formed tree lists such entries, in whatever
order, and so does one with the same hop put before all its paths. -/

namespace ByteLayout

namespace OrderedMap

variable {α β : Type} [DecidableEq α] {k : α} {v : β}

theorem get?_foldl_insert_eq_some_iff {l : List (α × β)} {m : OrderedMap α β}
    (nodup : (l.map Prod.fst).Nodup) (fresh : ∀ e ∈ l, m.get? e.1 = none) :
    (l.foldl (fun m e => m.insert e.1 e.2) m).get? k = some v ↔ m.get? k = some v ∨ (k, v) ∈ l := by
  induction l generalizing m with
  | nil => simp
  | cons e rest ih =>
    rw [List.map_cons, List.nodup_cons] at nodup
    have later : ∀ x ∈ rest, (m.insert e.1 e.2).get? x.1 = none := by
      intro x member
      have other : x.1 ≠ e.1 := fun same => nodup.1 (same ▸ List.mem_map_of_mem member)
      rw [get?_insert, if_neg other]
      exact fresh x (List.mem_cons_of_mem _ member)
    rw [List.foldl_cons, ih nodup.2 later, get?_insert, List.mem_cons, ← or_assoc]
    by_cases same : k = e.1
    · have unread : m.get? k = none := same ▸ fresh e List.mem_cons_self
      simp [unread, ← same, Prod.ext_iff, eq_comm]
    · simp [same, Prod.ext_iff]

/-- The map of pairs with different keys has exactly these pairs as entries. -/
theorem get?_ofList_eq_some_iff {l : List (α × β)} (nodup : (l.map Prod.fst).Nodup) :
    (ofList l).get? k = some v ↔ (k, v) ∈ l := by
  rw [ofList, get?_foldl_insert_eq_some_iff nodup fun _ _ => rfl]
  simp

end OrderedMap

namespace Path

theorem isAncestorOf_cons_iff {hop hop' : Hop} {p q : Path} :
    isAncestorOf ⟨hop, p.hops⟩ ⟨hop', q.hops⟩ = true ↔ hop = hop' ∧ p.isAncestorOf q = true := by
  simp [isAncestorOf_iff, hops, List.cons_prefix_cons, and_assoc]

end Path

namespace Tree

variable {policy : Policy} {t : Tree} {p : Path} {tag : Tag} {es : List (Path × Tag)}
  {m : OrderedMap Path Tag}

/-- Entries that can be stored as they are. -/
structure Formed (es : List (Path × Tag)) : Prop where
  distinct : (es.map Prod.fst).Nodup
  known : ∀ e ∈ es, e.2 ≠ .bottom
  pointers : ∀ e ∈ es, ∀ e' ∈ es, e.1.isAncestorOf e'.1 = true → e.2 = .pointer

theorem Formed.of_perm {es' : List (Path × Tag)} (formed : Formed es) (perm : es'.Perm es) :
    Formed es' where
  distinct := (perm.map Prod.fst).nodup_iff.mpr formed.distinct
  known e member := formed.known e (perm.mem_iff.mp member)
  pointers e member e' member' :=
    formed.pointers e (perm.mem_iff.mp member) e' (perm.mem_iff.mp member')

theorem Formed.singleton (p : Path) (known : tag ≠ .bottom) : Formed [(p, tag)] := by
  refine ⟨by simp, by simpa using known, fun e member e' member' above => ?_⟩
  rw [List.mem_singleton] at member member'
  subst member member'
  exact absurd above (Path.not_isAncestorOf_self p)

theorem mem_entries_iff : (p, tag) ∈ t.entries ↔ t.get? p = some tag := OrderedMap.mem_entries_iff

/-- A tree that stores exactly some entries is well-formed if they are in form. -/
theorem Formed.wellFormed (formed : Formed es)
    (stores : ∀ p tag, t.get? p = some tag ↔ (p, tag) ∈ es) : t.WellFormed := by
  constructor
  · intro p found
    exact formed.known _ ((stores p .bottom).mp found) rfl
  · intro p q tag above atP atQ
    obtain ⟨other, found⟩ := Option.isSome_iff_exists.mp atQ
    exact formed.pointers _ ((stores p tag).mp atP) _ ((stores q other).mp found) above

theorem WellFormed.formed (wf : t.WellFormed) : Formed t.entries where
  distinct := t.map.nodup
  known := by
    rintro ⟨p, tag⟩ member rfl
    exact wf.known p (mem_entries_iff.mp member)
  pointers := by
    rintro ⟨p, tag⟩ member ⟨q, other⟩ member' above
    exact wf.pointers p q tag above (mem_entries_iff.mp member)
      (by rw [mem_entries_iff.mp member']; rfl)

/-- Bringing a map into form changes nothing when it is in form. -/
theorem normalize_beq_of_wellFormed (policy : Policy) (wf : (mk m).WellFormed) :
    (normalize policy m == mk m) = true :=
  beq_of_below_iff policy (wellFormed_normalize policy m) wf fun _ wfT => normalize_below_iff wfT

theorem get?_addAll_eq_some_iff (distinct : (es.map Prod.fst).Nodup)
    (known : ∀ e ∈ es, e.2 ≠ .bottom) (fresh : ∀ e ∈ es, m.get? e.1 = none) :
    (addAll policy m es).get? p = some tag ↔ m.get? p = some tag ∨ (p, tag) ∈ es := by
  induction es generalizing m with
  | nil => simp [addAll]
  | cons e rest ih =>
    rw [List.map_cons, List.nodup_cons] at distinct
    have knownE : e.2 ≠ .bottom := known e List.mem_cons_self
    have later : ∀ x ∈ rest, (addTag policy m e.1 e.2).get? x.1 = none := by
      intro x member
      have other : x.1 ≠ e.1 := fun same => distinct.1 (same ▸ List.mem_map_of_mem member)
      rw [get?_addTag, if_neg fun changed => other changed.2]
      exact fresh x (List.mem_cons_of_mem _ member)
    change (addAll policy (addTag policy m e.1 e.2) rest).get? p = some tag ↔ _
    rw [ih distinct.2 (fun x member => known x (List.mem_cons_of_mem _ member)) later, get?_addTag,
      List.mem_cons, ← or_assoc]
    by_cases same : p = e.1
    · have unread : m.get? e.1 = none := fresh e List.mem_cons_self
      simp [same, unread, knownE, Tag.join, Prod.ext_iff, eq_comm]
    · simp [same, Prod.ext_iff]

/-- The tree of entries in form stores exactly them. -/
theorem Formed.get?_ofEntries_eq_some_iff (formed : Formed es) :
    (ofEntries policy es).get? p = some tag ↔ (p, tag) ∈ es := by
  have stores (p : Path) (tag : Tag) :
      (Tree.mk (addAll policy .empty es)).get? p = some tag ↔ (p, tag) ∈ es := by
    refine (get?_addAll_eq_some_iff formed.distinct formed.known fun e _ =>
      OrderedMap.get?_empty e.1).trans ?_
    simp
  have same := normalize_beq_of_wellFormed policy (formed.wellFormed stores)
  rw [ofEntries, beq_iff.mp same p, stores]

/-! ## One more hop before every path -/

theorem get?_under_eq_some_iff (hop : Hop) :
    (t.under hop).get? p = some tag ↔
      ∃ q, t.get? q = some tag ∧ p = ⟨hop, q.hops⟩ := by
  have injective (p q : Path) (same : (⟨hop, p.hops⟩ : Path) = ⟨hop, q.hops⟩) : p = q := by
    cases p; cases q
    simpa [Path.hops] using same
  have nodup : ((t.entries.map fun e => ((⟨hop, e.1.hops⟩ : Path), e.2)).map Prod.fst).Nodup := by
    rw [List.map_map, List.Nodup, List.pairwise_map]
    exact (List.pairwise_map.mp t.map.nodup).imp fun different same =>
      different (injective _ _ same)
  change (OrderedMap.ofList _).get? p = some tag ↔ _
  rw [OrderedMap.get?_ofList_eq_some_iff nodup, List.mem_map]
  constructor
  · rintro ⟨⟨q, stored⟩, member, same⟩
    cases same
    exact ⟨q, mem_entries_iff.mp member, rfl⟩
  · rintro ⟨q, found, rfl⟩
    exact ⟨(q, tag), mem_entries_iff.mpr found, rfl⟩

theorem wellFormed_under (hop : Hop) (wf : t.WellFormed) : (t.under hop).WellFormed := by
  constructor
  · intro p stored
    obtain ⟨q, found, -⟩ := (get?_under_eq_some_iff hop).mp stored
    exact wf.known q found
  · intro p q tag above atP atQ
    obtain ⟨other, found⟩ := Option.isSome_iff_exists.mp atQ
    obtain ⟨p, foundP, rfl⟩ := (get?_under_eq_some_iff hop).mp atP
    obtain ⟨q, foundQ, rfl⟩ := (get?_under_eq_some_iff hop).mp found
    exact wf.pointers p q tag (Path.isAncestorOf_cons_iff.mp above).2 foundP (by rw [foundQ]; rfl)

end Tree

end ByteLayout
