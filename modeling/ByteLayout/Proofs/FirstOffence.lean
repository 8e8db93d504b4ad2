import ByteLayout.Proofs.AcceptedText

/-! # The first offence of a text

A text that is written as a tree may still list paths that are none, tags that are none, the same path
twice, or entries behind a leaf, and any number of these together. Only one of them is reported. A
path or a tag that is none comes before everything else, and of those the one furthest to the left.
Then come repeated paths, then entries behind a leaf, and of either the first entry in the text. -/

namespace ByteLayout

namespace TreeText

variable {text : String} {es : List WrittenEntry} {ls : List ListedEntry} {e : WrittenEntry}
  {l : ListedEntry} {fault : Fault} {pos : Nat}

/-! ## Places of entries -/

/-- The paths and tags of entries follow each other in the text. -/
structure InTextOrder (es : List WrittenEntry) : Prop where
  tags : ∀ e ∈ es, e.start < e.tagStart
  entries : es.Pairwise fun e e' => e.tagStart < e'.start

namespace Written

variable {cs : List Char} {found : List WrittenEntry}

/-- An entry starts with its path, and its tag follows before it ends. -/
theorem entry_places (listed : entry pos cs e) :
    e.start = pos ∧ e.start < e.tagStart ∧ e.tagStart < pos + cs.length := by
  obtain ⟨_, _, start, rfl, ⟨rfl, rfl⟩, left, _, found, rfl, placed, gap, _, u, rfl, separated, _, _,
    tagStart, rfl, ⟨rfl, rfl⟩, right, _, tag, rfl, tagged, rfl, rfl⟩ := listed
  obtain ⟨before, after, rfl, -⟩ := separator_iff.mp separated
  obtain ⟨c, more, rfl, -⟩ := visible_of_tag tagged
  refine ⟨rfl, ?_, ?_⟩ <;> simp only [List.length_nil, List.length_append, List.length_cons] <;> omega

theorem many_entries_inTextOrder
    (listed : Language.Many (do separator ','; entry) pos cs found) :
    InTextOrder found ∧ ∀ e ∈ found, pos < e.start := by
  induction listed with
  | nil pos => exact ⟨⟨by simp, .nil⟩, by simp⟩
  | @cons pos left right e more first later ih =>
    obtain ⟨⟨tags, entries⟩, behind⟩ := ih
    obtain ⟨gap, item, u, rfl, separated, inside⟩ := first
    obtain ⟨before, after, rfl, -⟩ := separator_iff.mp separated
    obtain ⟨start, path, tag⟩ := entry_places inside
    simp only [List.length_append, List.length_cons] at start tag behind
    refine ⟨⟨List.forall_mem_cons.mpr ⟨path, tags⟩, List.pairwise_cons.mpr ⟨?_, entries⟩⟩,
      List.forall_mem_cons.mpr ⟨by omega, ?_⟩⟩
    · intro e' member
      have further := behind e' member
      omega
    · intro e' member
      have further := behind e' member
      omega

theorem entries_inTextOrder (listed : entries pos cs found) : InTextOrder found := by
  obtain ⟨left, _, e, rfl, first, right, _, more, rfl, items, rfl, rfl⟩ := listed
  obtain ⟨⟨tags, entries⟩, behind⟩ := many_entries_inTextOrder items
  obtain ⟨start, path, tag⟩ := entry_places first
  refine ⟨List.forall_mem_cons.mpr ⟨path, tags⟩, List.pairwise_cons.mpr ⟨?_, entries⟩⟩
  intro e' member
  have further := behind e' member
  omega

theorem tree_inTextOrder (written : tree pos cs found) : InTextOrder found := by
  obtain ⟨_, _, u, rfl, -, middle, _, inner, rfl, listed, _, _, u', rfl, -, rfl, rfl⟩ := written
  cases inner with
  | none => exact ⟨by simp, .nil⟩
  | some es => exact entries_inTextOrder listed

end Written

/-! ## Paths and tags that are none -/

/-- At a place of the text stands the path of an entry, which has no hops or one below minus one, or
its tag, which is unknown, has a wrong precision or stands for nothing. -/
def WrittenEntry.OffendsAt (e : WrittenEntry) (pos : Nat) : Prop :=
  (pos = e.start ∧ (e.hops = [] ∨ ∃ n ∈ e.hops, n < -1)) ∨
    (pos = e.tagStart ∧ ¬ ∃ tag : Tag, tag ≠ .bottom ∧ e.tag = tag.render)

theorem ofData_eq_error_iff {ns : List Int} :
    (∃ fault, Path.ofData (ns.map .int) = .error fault) ↔ ns = [] ∨ ∃ n ∈ ns, n < -1 := by
  have sound : (∃ p, Path.ofData (ns.map .int) = .ok p) ↔ ns ≠ [] ∧ ∀ n ∈ ns, -1 ≤ n := by
    rw [← Path.exists_numbers_eq_iff]
    exact exists_congr fun p => Path.ofData_map_int_eq_ok_iff.trans eq_comm
  have opposite : (ns = [] ∨ ∃ n ∈ ns, n < -1) ↔ ¬ (ns ≠ [] ∧ ∀ n ∈ ns, -1 ≤ n) := by
    rw [Classical.not_and_iff_not_or_not]
    simp
  rw [opposite, ← sound]
  cases Path.ofData (ns.map .int) with
  | error fault => simp
  | ok p => simp

/-- A check that succeeds has found no offence. -/
theorem WrittenEntry.not_offendsAt_of_check (ok : e.check = .ok l) (pos : Nat) : ¬ e.OffendsAt pos := by
  obtain ⟨⟨numbers, written⟩, known, -⟩ := check_eq_ok_iff.mp ok
  rintro (⟨-, bad⟩ | ⟨-, bad⟩)
  · obtain ⟨fault, failed⟩ := ofData_eq_error_iff.mpr bad
    rw [Path.ofData_map_int_eq_ok_iff.mpr numbers] at failed
    cases failed
  · exact bad ⟨l.tag, known, written⟩

/-- A check that fails reports the first offence of its entry. -/
theorem WrittenEntry.first_of_check_eq_error (failed : e.check = .error fault)
    (order : e.start < e.tagStart) :
    e.OffendsAt fault.position ∧ fault.position ≤ e.tagStart ∧
      ∀ pos, e.OffendsAt pos → fault.position ≤ pos := by
  unfold check at failed
  cases placed : Path.ofData (e.hops.map .int) with
  | error reason =>
    rw [placed] at failed
    cases failed
    refine ⟨Or.inl ⟨rfl, ofData_eq_error_iff.mp ⟨reason, placed⟩⟩, Nat.le_of_lt order, ?_⟩
    rintro pos (⟨rfl, -⟩ | ⟨rfl, -⟩)
    · exact Nat.le_refl _
    · exact Nat.le_of_lt order
  | ok p =>
    -- The path is one, so what remains is the tag.
    have onlyTag : ∀ pos, e.OffendsAt pos → e.tagStart ≤ pos := by
      rintro pos (⟨-, bad⟩ | ⟨rfl, -⟩)
      · obtain ⟨reason, refused⟩ := ofData_eq_error_iff.mpr bad
        rw [placed] at refused
        cases refused
      · exact Nat.le_refl _
    have offends (no : ∀ tag : Tag, tag ≠ .bottom → Tag.parse e.tag ≠ .ok tag) :
        e.OffendsAt e.tagStart := by
      refine Or.inr ⟨rfl, ?_⟩
      rintro ⟨tag, known, written⟩
      exact no tag known (Tag.parse_eq_ok_iff.mpr written)
    rw [placed] at failed
    dsimp only at failed
    split at failed
    · next reason refused =>
      cases failed
      exact ⟨offends (by simp [refused]), Nat.le_refl _, onlyTag⟩
    · next nothing =>
      cases failed
      refine ⟨offends ?_, Nat.le_refl _, onlyTag⟩
      rintro tag known same
      rw [nothing] at same
      cases same
      exact known rfl
    · cases failed

/-- A traversal that fails reports the first offence of all entries. -/
theorem first_of_mapM_check_eq_error (order : InTextOrder es)
    (failed : es.mapM WrittenEntry.check = .error fault) :
    (∃ e ∈ es, e.OffendsAt fault.position) ∧
      ∀ e ∈ es, ∀ pos, e.OffendsAt pos → fault.position ≤ pos := by
  obtain ⟨before, e, after, rfl, fine, fails⟩ := exists_first_of_mapM_eq_error failed
  have member : e ∈ before ++ e :: after := by simp
  obtain ⟨offends, nearTag, first⟩ := e.first_of_check_eq_error fails (order.tags e member)
  refine ⟨⟨e, member, offends⟩, fun e' among pos offends' => ?_⟩
  rcases List.mem_append.mp among with earlier | later
  · obtain ⟨l, ok⟩ := fine e' earlier
    exact absurd offends' (WrittenEntry.not_offendsAt_of_check ok pos)
  · rcases List.mem_cons.mp later with rfl | later
    · exact first pos offends'
    · have following := (List.pairwise_cons.mp (List.pairwise_append.mp order.entries).2.1).1 e' later
      have own := order.tags e' among
      rcases offends' with ⟨rfl, -⟩ | ⟨rfl, -⟩ <;> omega

/-! ## Repeated paths and entries behind a leaf -/

/-- An entry is the first one whose path occurs before it. -/
def IsFirstRepeat (es : List WrittenEntry) (e : WrittenEntry) : Prop :=
  ∃ before after, es = before ++ e :: after ∧ e.hops ∈ before.map WrittenEntry.hops ∧
    (before.map WrittenEntry.hops).Nodup

/-- An entry lies behind one that is tagged as a scalar or as opaque, wherever that one is listed. -/
def IsBeneath (es : List WrittenEntry) (e : WrittenEntry) : Prop :=
  ∃ leaf ∈ es, leaf.IsLeaf ∧ leaf.hops <+: e.hops ∧ leaf.hops ≠ e.hops

/-- An entry is the first one that lies behind a leaf. -/
def IsFirstBeneath (es : List WrittenEntry) (e : WrittenEntry) : Prop :=
  ∃ before after, es = before ++ e :: after ∧ IsBeneath es e ∧ ∀ e' ∈ before, ¬ IsBeneath es e'

/-- Cutting the sound entries cuts the written ones at the same place. -/
theorem exists_cut_of_sound {before after : List ListedEntry}
    (sound : es.map WrittenEntry.check = (before ++ l :: after).map .ok) :
    ∃ left e right, es = left ++ e :: right ∧ left.map WrittenEntry.check = before.map .ok ∧
      e.check = .ok l := by
  rw [List.map_append, List.map_cons] at sound
  obtain ⟨left, more, rfl, first, later⟩ := List.map_eq_append_iff.mp sound
  obtain ⟨e, right, rfl, checked, -⟩ := List.map_eq_cons_iff.mp later
  exact ⟨left, e, right, rfl, first, checked⟩

theorem unrepeated_iff (sound : es.map WrittenEntry.check = ls.map .ok) :
    firstRepeat? [] ls = none ↔ (es.map WrittenEntry.hops).Nodup := by
  rw [nodup_hops_iff sound, firstRepeat?_eq_none_iff]
  simp

theorem firstRepeat?_eq_some {seen : List Path} (found : firstRepeat? seen ls = some l) :
    ∃ before after, ls = before ++ l :: after ∧ (before.map ListedEntry.path).Nodup ∧
      (∀ x ∈ before, x.path ∉ seen) ∧ (l.path ∈ seen ∨ l.path ∈ before.map ListedEntry.path) := by
  induction ls generalizing seen with
  | nil => cases found
  | cons x rest ih =>
    unfold firstRepeat? at found
    split at found
    · next repeated =>
      cases found
      exact ⟨[], rest, rfl, .nil, by simp, Or.inl repeated⟩
    · next fresh =>
      obtain ⟨before, after, rfl, distinct, others, again⟩ := ih found
      simp only [List.mem_cons, not_or] at others again
      refine ⟨x :: before, after, rfl, ?_, ?_, ?_⟩
      · rw [List.map_cons, List.nodup_cons]
        refine ⟨fun twice => ?_, distinct⟩
        obtain ⟨y, member, same⟩ := List.mem_map.mp twice
        exact (others y member).1 same
      · exact List.forall_mem_cons.mpr ⟨fresh, fun y member => (others y member).2⟩
      · rw [List.map_cons, List.mem_cons]
        rcases again with (same | old) | twice
        · exact Or.inr (Or.inl same)
        · exact Or.inl old
        · exact Or.inr (Or.inr twice)

theorem isFirstRepeat_of_firstRepeat? (sound : es.map WrittenEntry.check = ls.map .ok)
    (found : firstRepeat? [] ls = some l) : ∃ e, IsFirstRepeat es e ∧ l.start = e.start := by
  obtain ⟨before, after, rfl, distinct, -, again⟩ := firstRepeat?_eq_some found
  obtain ⟨left, e, right, rfl, soundLeft, checked⟩ := exists_cut_of_sound sound
  obtain ⟨means, -, start⟩ := WrittenEntry.check_eq_ok_iff.mp checked
  refine ⟨e, ⟨left, right, rfl, ?_, (nodup_hops_iff soundLeft).mpr distinct⟩, start⟩
  obtain ⟨x, member, same⟩ := List.mem_map.mp (again.resolve_left List.not_mem_nil)
  rw [map_hops_eq soundLeft, means.1]
  exact List.mem_map.mpr ⟨x, member, congrArg Path.numbers same⟩

theorem isBeneath_iff (sound : es.map WrittenEntry.check = ls.map .ok) (checked : e.check = .ok l) :
    IsBeneath es e ↔ leafAbove? ls l.path ≠ none := by
  have own := (WrittenEntry.check_eq_ok_iff.mp checked).1.1
  have above {leaf : WrittenEntry} {listed : ListedEntry} (means : leaf.Means listed.path listed.tag) :
      leaf.hops <+: e.hops ∧ leaf.hops ≠ e.hops ↔ listed.path.isAncestorOf l.path = true := by
    rw [Path.isAncestorOf_iff_numbers, means.1, own]
  have leafy {leaf : WrittenEntry} {listed : ListedEntry} (means : leaf.Means listed.path listed.tag)
      (member : listed ∈ ls) : leaf.IsLeaf ↔ isLeaf listed.tag ≠ false := by
    have known := known_of_map_check sound listed member
    rw [ne_eq, isLeaf_eq_false_iff known, ← WrittenEntry.not_isLeaf_iff means known,
      Classical.not_not]
  rw [ne_eq, leafAbove?_eq_none_iff]
  constructor
  · rintro ⟨leaf, among, isLeaf, start⟩ clear
    obtain ⟨listed, member, means⟩ := exists_check_of_mem sound among
    exact (leafy means member).mp isLeaf (clear listed member ((above means).mp start))
  · intro notClear
    simp only [Classical.not_forall] at notClear
    obtain ⟨listed, member, ancestor, isLeaf⟩ := notClear
    obtain ⟨leaf, among, means⟩ := exists_means_of_mem sound member
    exact ⟨leaf, among, (leafy means member).mpr isLeaf, (above means).mpr ancestor⟩

theorem unhidden_iff (sound : es.map WrittenEntry.check = ls.map .ok) :
    firstBeneath? ls = none ↔ ∀ e ∈ es, ¬ IsBeneath es e := by
  obtain ⟨forward, backward⟩ := mem_of_mapM_eq_ok (mapM_eq_ok_iff.mpr sound)
  simp only [firstBeneath?_eq_none_iff, ← leafAbove?_eq_none_iff]
  constructor
  · intro clear e member
    obtain ⟨l, listed, checked⟩ := forward e member
    rw [isBeneath_iff sound checked, ne_eq, Classical.not_not]
    exact clear l listed
  · intro clear l listed
    obtain ⟨e, member, checked⟩ := backward l listed
    have shown := clear e member
    rwa [isBeneath_iff sound checked, ne_eq, Classical.not_not] at shown

theorem isFirstBeneath_of_firstBeneath? {leaf : ListedEntry}
    (sound : es.map WrittenEntry.check = ls.map .ok) (found : firstBeneath? ls = some (l, leaf)) :
    ∃ e, IsFirstBeneath es e ∧ l.start = e.start := by
  obtain ⟨before, x, after, cut, hit, clear⟩ := List.findSome?_eq_some_iff.mp found
  obtain ⟨above, exists_, same⟩ := Option.map_eq_some_iff.mp hit
  cases same
  have soundCut := sound
  rw [cut] at soundCut
  obtain ⟨left, e, right, split, soundLeft, checked⟩ := exists_cut_of_sound soundCut
  refine ⟨e, ⟨left, right, split, ?_, ?_⟩, (WrittenEntry.check_eq_ok_iff.mp checked).2.2⟩
  · rw [isBeneath_iff sound checked, exists_]
    exact Option.some_ne_none _
  · intro e' member
    have among : e'.check ∈ before.map Except.ok := soundLeft ▸ List.mem_map_of_mem member
    obtain ⟨x, earlier, checked'⟩ := List.mem_map.mp among
    rw [isBeneath_iff sound checked'.symm, ne_eq, Classical.not_not]
    exact Option.map_eq_none_iff.mp (clear x earlier)

/-! ## What is reported -/

theorem read_of_written (written : Written.tree 0 text.toList es) :
    read text = es.mapM WrittenEntry.check >>= assemble := by
  simp [read, scan_eq_ok_iff.mpr written, bind, Except.bind]

theorem read_of_sound (written : Written.tree 0 text.toList es)
    (sound : es.map WrittenEntry.check = ls.map .ok) : read text = assemble ls := by
  rw [read_of_written written, mapM_eq_ok_iff.mpr sound]
  rfl

/-- Where no entry offends, each is a path with a tag. -/
theorem exists_sound (fine : ∀ e ∈ es, ∀ pos, ¬ e.OffendsAt pos) (order : InTextOrder es) :
    ∃ ls : List ListedEntry, es.map WrittenEntry.check = ls.map .ok := by
  cases checked : es.mapM WrittenEntry.check with
  | ok ls => exact ⟨ls, mapM_eq_ok_iff.mp checked⟩
  | error fault =>
    obtain ⟨⟨e, member, offends⟩, -⟩ := first_of_mapM_check_eq_error order checked
    exact absurd offends (fine e member fault.position)

/-- What becomes of a text that is written as a tree. If paths or tags are none, the one furthest to
the left is reported. Otherwise, if a path is repeated, it is the first entry whose path occurred
before. Otherwise, if entries lie behind a leaf, it is the first of them. Otherwise the text stands for
a tree. -/
theorem read_refuses_first_offence (text : String) (es : List WrittenEntry)
    (written : Written.tree 0 text.toList es) :
    ((∃ e ∈ es, ∃ pos, e.OffendsAt pos) →
      ∃ fault, read text = .error fault ∧ (∃ e ∈ es, e.OffendsAt fault.position) ∧
        ∀ e ∈ es, ∀ pos, e.OffendsAt pos → fault.position ≤ pos) ∧
    ((∀ e ∈ es, ∀ pos, ¬ e.OffendsAt pos) → ¬ (es.map WrittenEntry.hops).Nodup →
      ∃ e fault, IsFirstRepeat es e ∧ read text = .error fault ∧ fault.position = e.start) ∧
    ((∀ e ∈ es, ∀ pos, ¬ e.OffendsAt pos) → (es.map WrittenEntry.hops).Nodup →
      (∃ e ∈ es, IsBeneath es e) →
      ∃ e fault, IsFirstBeneath es e ∧ read text = .error fault ∧ fault.position = e.start) ∧
    ((∀ e ∈ es, ∀ pos, ¬ e.OffendsAt pos) → (es.map WrittenEntry.hops).Nodup →
      (∀ e ∈ es, ¬ IsBeneath es e) → ∃ t, read text = .ok t) := by
  have order := Written.tree_inTextOrder written
  refine ⟨?_, ?_, ?_, ?_⟩
  · rintro ⟨e, member, pos, offends⟩
    cases checked : es.mapM WrittenEntry.check with
    | ok ls =>
      obtain ⟨l, -, ok⟩ := (mem_of_mapM_eq_ok checked).1 e member
      exact absurd offends (WrittenEntry.not_offendsAt_of_check ok pos)
    | error fault =>
      refine ⟨fault, ?_, first_of_mapM_check_eq_error order checked⟩
      rw [read_of_written written, checked]
      rfl
  · intro fine repeated
    obtain ⟨ls, sound⟩ := exists_sound fine order
    cases found : firstRepeat? [] ls with
    | none => exact absurd ((unrepeated_iff sound).mp found) repeated
    | some l =>
      obtain ⟨e, first, start⟩ := isFirstRepeat_of_firstRepeat? sound found
      refine ⟨e, ⟨l.start, .duplicate l.path⟩, first, ?_, start⟩
      simp only [read_of_sound written sound, assemble, found]
  · rintro fine distinct ⟨e, member, beneath⟩
    obtain ⟨ls, sound⟩ := exists_sound fine order
    have unrepeated := (unrepeated_iff sound).mpr distinct
    cases found : firstBeneath? ls with
    | none => exact absurd beneath ((unhidden_iff sound).mp found e member)
    | some pair =>
      obtain ⟨l, leaf⟩ := pair
      obtain ⟨e', first, start⟩ := isFirstBeneath_of_firstBeneath? sound found
      refine ⟨e', ⟨l.start, .beneathLeaf l.path leaf.tag leaf.path⟩, first, ?_, start⟩
      simp only [read_of_sound written sound, assemble, unrepeated, found]
  · intro fine distinct clear
    obtain ⟨ls, sound⟩ := exists_sound fine order
    have unrepeated := (unrepeated_iff sound).mpr distinct
    have unhidden := (unhidden_iff sound).mpr clear
    refine ⟨_, (?_ : read text = .ok (.ofEntries .distinct (ls.map fun l => (l.path, l.tag))))⟩
    simp only [read_of_sound written sound, assemble, unrepeated, unhidden]

/-- A text with an entry behind a leaf that is listed later, and with what `last` adds. -/
def crowdedText (last : String) : String :=
  "\x7b[0,4]:Pointer, [0]:Integer" ++ last ++ "\x7d"

/-- Entries with all kinds of offences: the first one lies behind the second one, the third one repeats
a path, the tag of the fourth one lacks a precision, and the last one has no hops. -/
def crowded : List WrittenEntry :=
  [⟨1, [0, 4], 7, "Pointer"⟩, ⟨16, [0], 20, "Integer"⟩, ⟨29, [0], 34, "Pointer"⟩,
    ⟨43, [1], 47, "Float"⟩, ⟨54, [], 57, "Bottom"⟩]

/-- The tag is reported first; without the last two entries the repeated path is, and without the third
one, too, the entry behind the leaf. -/
theorem read_refuses_first_offence_crowded :
    (Written.tree 0 (crowdedText ",\n[+0]:Pointer, [1]:Float, []:Bottom").toList crowded ∧
      ∃ fault, read (crowdedText ",\n[+0]:Pointer, [1]:Float, []:Bottom") = .error fault ∧
        (∃ e ∈ crowded, e.OffendsAt fault.position) ∧
        ∀ e ∈ crowded, ∀ pos, e.OffendsAt pos → fault.position ≤ pos) ∧
    (Written.tree 0 (crowdedText ",\n[+0]:Pointer").toList (crowded.take 3) ∧
      ∃ e fault, IsFirstRepeat (crowded.take 3) e ∧
        read (crowdedText ",\n[+0]:Pointer") = .error fault ∧ fault.position = e.start) ∧
    (Written.tree 0 (crowdedText "").toList (crowded.take 2) ∧
      ∃ e fault, IsFirstBeneath (crowded.take 2) e ∧
        read (crowdedText "") = .error fault ∧ fault.position = e.start) := by
  have written {last : String} {es : List WrittenEntry}
      (found : (scan (crowdedText last).toList).toOption = some es) :
      Written.tree 0 (crowdedText last).toList es :=
    scan_eq_ok_iff.mp (eq_ok_of_toOption found)
  have fine {n : Nat} (known : ((crowded.take n).all fun e => e.check.toOption.isSome) = true) :
      ∀ e ∈ crowded.take n, ∀ pos, ¬ e.OffendsAt pos := by
    intro e member
    obtain ⟨l, ok⟩ := Option.isSome_iff_exists.mp (List.all_eq_true.mp known e member)
    exact WrittenEntry.not_offendsAt_of_check (eq_ok_of_toOption ok)
  have whole : Written.tree 0 (crowdedText ",\n[+0]:Pointer, [1]:Float, []:Bottom").toList crowded :=
    written (by decide +kernel)
  have repeated : Written.tree 0 (crowdedText ",\n[+0]:Pointer").toList (crowded.take 3) :=
    written (by decide +kernel)
  have beneath : Written.tree 0 (crowdedText "").toList (crowded.take 2) := written (by decide +kernel)
  refine ⟨⟨whole, ?_⟩, ⟨repeated, ?_⟩, ⟨beneath, ?_⟩⟩
  · refine (read_refuses_first_offence _ _ whole).1 ⟨⟨54, [], 57, "Bottom"⟩, by decide, 54, ?_⟩
    exact Or.inl ⟨rfl, Or.inl rfl⟩
  · exact (read_refuses_first_offence _ _ repeated).2.1 (fine (by decide +kernel)) (by decide)
  · refine (read_refuses_first_offence _ _ beneath).2.2.1 (fine (by decide +kernel)) (by decide)
      ⟨⟨1, [0, 4], 7, "Pointer"⟩, by decide, ⟨16, [0], 20, "Integer"⟩, by decide, Or.inl rfl, ?_, ?_⟩
    · exact ⟨[4], rfl⟩
    · decide

end TreeText

end ByteLayout
