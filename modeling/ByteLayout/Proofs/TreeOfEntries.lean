import ByteLayout.Proofs.Join

/-! # What the tree of a list of entries stores

The tags that are listed for one path are joined, in whatever order they are listed. Bringing the
result into form can turn a tag into a pointer or into a contradiction where something lies behind
it. It does neither where the list itself has a pointer wherever it has anything on the way to one of
its entries: then the tree stores the joins as they are, except behind contradictions. -/

namespace ByteLayout

variable {policy : Policy}

namespace Tag

/-- The joins of finitely many tags, taken one after the other, yield `tag`. -/
def IsJoin (policy : Policy) (tags : Tag → Prop) (tag : Tag) : Prop :=
  ∃ listed : List Tag, (∀ given, given ∈ listed ↔ tags given) ∧
    listed.foldl (join policy) .bottom = tag

theorem foldl_join_below_iff {listed : List Tag} {first bound : Tag} :
    Below policy (listed.foldl (join policy) first) bound ↔
      Below policy first bound ∧ ∀ given ∈ listed, Below policy given bound := by
  induction listed generalizing first with
  | nil => simp
  | cons tag rest ih => rw [List.foldl_cons, ih, join_below_iff, List.forall_mem_cons, and_assoc]

section Joins

variable {tags : Tag → Prop} {tag other bound : Tag}

/-- A join of finitely many tags is their least upper bound. -/
theorem IsJoin.below_iff (joined : IsJoin policy tags tag) :
    Below policy tag bound ↔ ∀ given, tags given → Below policy given bound := by
  obtain ⟨listed, exact', rfl⟩ := joined
  rw [foldl_join_below_iff, and_iff_right (bottom_below policy bound)]
  exact forall_congr' fun given => by rw [exact' given]

/-- Neither the order of the tags nor their repetition plays a part. -/
theorem IsJoin.unique (joined : IsJoin policy tags tag) (joined' : IsJoin policy tags other) :
    tag = other := by
  apply below_antisymm
  · rw [joined.below_iff, ← joined'.below_iff]
    exact below_refl policy other
  · rw [joined'.below_iff, ← joined.below_iff]
    exact below_refl policy tag

theorem IsJoin.congr {tags' : Tag → Prop} (joined : IsJoin policy tags tag)
    (same : ∀ given, tags given ↔ tags' given) : IsJoin policy tags' tag := by
  obtain ⟨listed, exact', joins⟩ := joined
  exact ⟨listed, fun given => (exact' given).trans (same given), joins⟩

/-- A join is known exactly when one of the tags is. -/
theorem IsJoin.ne_bottom_iff (joined : IsJoin policy tags tag) :
    tag ≠ .bottom ↔ ∃ given, tags given ∧ given ≠ .bottom := by
  have least : Below policy tag .bottom ↔ ∀ given, tags given → Below policy given .bottom :=
    joined.below_iff
  simp only [below_bottom_iff] at least
  rw [Ne, least]
  simp only [Classical.not_forall, exists_prop]

end Joins

end Tag

namespace Tree

variable {es : List (Path × Tag)} {p q : Path} {tag : Tag}

/-- The known tags that are listed for a path. -/
def tagsAt (es : List (Path × Tag)) (p : Path) : List Tag :=
  (es.filter fun e => e.1 = p ∧ e.2 ≠ .bottom).map Prod.snd

theorem mem_tagsAt : tag ∈ tagsAt es p ↔ (p, tag) ∈ es ∧ tag ≠ .bottom := by
  simp only [tagsAt, List.mem_map, List.mem_filter, decide_eq_true_eq]
  constructor
  · rintro ⟨⟨q, tag⟩, ⟨member, rfl, known⟩, rfl⟩
    exact ⟨member, known⟩
  · rintro ⟨member, known⟩
    exact ⟨(p, tag), ⟨member, rfl, known⟩, rfl⟩

theorem tag_addAll (policy : Policy) (m : OrderedMap Path Tag) (es : List (Path × Tag)) (p : Path) :
    (mk (addAll policy m es)).tag p =
      (tagsAt es p).foldl (Tag.join policy) ((mk m).tag p) := by
  induction es generalizing m with
  | nil => rfl
  | cons e rest ih =>
    change (mk (addAll policy (addTag policy m e.1 e.2) rest)).tag p = _
    rw [ih, tag_addTag]
    by_cases here : e.1 = p ∧ e.2 ≠ .bottom
    · obtain ⟨rfl, known⟩ := here
      simp [tagsAt, known]
    · rw [if_neg fun changed => here ⟨changed.2.symm, changed.1⟩]
      simp [tagsAt, here]

/-- The join of what is listed for a path. -/
def listedTag (policy : Policy) (es : List (Path × Tag)) (p : Path) : Tag :=
  (tagsAt es p).foldl (Tag.join policy) .bottom

theorem isJoin_listedTag (policy : Policy) (es : List (Path × Tag)) (p : Path) :
    Tag.IsJoin policy (fun given => (p, given) ∈ es ∧ given ≠ .bottom) (listedTag policy es p) :=
  ⟨tagsAt es p, fun _ => mem_tagsAt, rfl⟩

theorem tag_addAll_empty (policy : Policy) (es : List (Path × Tag)) (p : Path) :
    (mk (addAll policy .empty es)).tag p = listedTag policy es p :=
  tag_addAll policy .empty es p

/-- Only what is listed is stored. -/
theorem exists_mem_of_get?_ofEntries (found : (ofEntries policy es).get? p = some tag) :
    ∃ given, (p, given) ∈ es := by
  have stored : (ofEntries policy es).tag p ≠ .bottom := by
    rw [tag_of_get? found]
    exact (wellFormed_ofEntries policy es).ne_bottom found
  have listed : (mk (addAll policy .empty es)).tag p ≠ .bottom := by
    intro unknown
    apply stored
    rw [ofEntries, tag_normalize, tag_promote, tag_known, unknown]
    simp [Tag.isScalar]
  rw [tag_addAll_empty, (isJoin_listedTag policy es p).ne_bottom_iff] at listed
  obtain ⟨given, ⟨member, -⟩, -⟩ := listed
  exact ⟨given, member⟩

/-- Whatever is known on the way to a known entry is listed as a pointer, too. -/
def Paved (es : List (Path × Tag)) : Prop :=
  ∀ p q given tag, (p, given) ∈ es → given ≠ .bottom → (q, tag) ∈ es → tag ≠ .bottom →
    p.isAncestorOf q = true → (p, .pointer) ∈ es

/-- On the way to every known entry, the list has pointers. -/
def Grounded (es : List (Path × Tag)) : Prop :=
  ∀ p q tag, (q, tag) ∈ es → tag ≠ .bottom → p.isAncestorOf q = true → (p, .pointer) ∈ es

theorem Grounded.paved (grounded : Grounded es) : Paved es :=
  fun p q _ tag _ _ member known above => grounded p q tag member known above

/-- Nothing is turned into a pointer that is not one yet. -/
theorem Paved.tag_promote (paved : Paved es) (policy : Policy) (p : Path) :
    (mk (promote policy (known (addAll policy .empty es)))).tag p = listedTag policy es p := by
  rw [Tree.tag_promote, tag_known, tag_addAll_empty, if_neg]
  intro promoted
  rw [Bool.and_eq_true, hasDescendant_known_iff] at promoted
  obtain ⟨isScalar, q, above, known⟩ := promoted
  rw [tag_addAll_empty, (isJoin_listedTag policy es q).ne_bottom_iff] at known
  obtain ⟨tag, ⟨member, -⟩, knownTag⟩ := known
  have present : listedTag policy es p ≠ .bottom := by
    intro unknown
    rw [unknown] at isScalar
    cases isScalar
  obtain ⟨given, ⟨listed, -⟩, knownGiven⟩ := (isJoin_listedTag policy es p).ne_bottom_iff.mp present
  have pointer := paved p q given tag listed knownGiven member knownTag above
  have upper : Tag.Below policy .pointer (listedTag policy es p) :=
    (isJoin_listedTag policy es p).below_iff.mp (Tag.below_refl policy _) _ ⟨pointer, nofun⟩
  rcases Tag.pointer_below_iff.mp upper with same | same
  · rw [same] at isScalar; cases isScalar
  · rw [same] at isScalar; cases isScalar

/-- The tree of a paved list stores the joins of what is listed, except behind contradictions. -/
theorem Paved.get?_ofEntries (paved : Paved es) :
    (ofEntries policy es).get? p = some tag ↔
      (listedTag policy es p = tag ∧ tag ≠ .bottom) ∧
        ∀ q, q.isAncestorOf p = true → listedTag policy es q ≠ .anything := by
  have hidden : isHidden (promote policy (known (addAll policy .empty es))) p = true ↔
      ∃ q, q.isAncestorOf p = true ∧ listedTag policy es q = .anything := by
    rw [isHidden_iff]
    refine exists_congr fun q => and_congr_right fun _ => ?_
    rw [← paved.tag_promote policy q]
    exact tag_eq_anything_iff.symm
  have reading : (ofEntries policy es).tag p =
      if isHidden (promote policy (known (addAll policy .empty es))) p then .bottom
      else listedTag policy es p := by
    rw [← paved.tag_promote policy p]
    exact tag_normalize policy _ p
  rw [(wellFormed_ofEntries policy es).get?_eq_some_iff, reading]
  split
  · next behind =>
    obtain ⟨q, above, anything⟩ := hidden.mp behind
    constructor
    · rintro ⟨unknown, known⟩
      exact absurd unknown.symm known
    · rintro ⟨-, shown⟩
      exact absurd anything (shown q above)
  · next shown =>
    rw [hidden] at shown
    refine (and_iff_left fun q above anything => ?_).symm
    exact shown ⟨q, above, anything⟩

theorem Grounded.get?_ofEntries (grounded : Grounded es) :
    (ofEntries policy es).get? p = some tag ↔
      (listedTag policy es p = tag ∧ tag ≠ .bottom) ∧
        ∀ q, q.isAncestorOf p = true → listedTag policy es q ≠ .anything :=
  grounded.paved.get?_ofEntries

end Tree

end ByteLayout
