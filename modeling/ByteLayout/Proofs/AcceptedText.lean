import ByteLayout.Proofs.FormedEntries
import ByteLayout.Proofs.GreedyReading
import ByteLayout.Proofs.ProgramSystem

/-! # Which texts are trees

A text stands for a tree exactly when it is written as one, its paths are paths, its tags are tags,
no path is listed twice and no entry lies behind a scalar or an opaque one. The tree then stores what
is listed and nothing else. -/

namespace ByteLayout

/-! ## Paths by their numbers -/

namespace Path

/-- The numbers that a path is written with. -/
def numbers (p : Path) : List Int := p.hops.map Hop.toInt

theorem map_toInt_injective {as bs : List Hop} (same : as.map Hop.toInt = bs.map Hop.toInt) :
    as = bs :=
  (List.map_inj_right fun _ _ => Hop.toInt_injective).mp same

theorem numbers_injective {p q : Path} (same : p.numbers = q.numbers) : p = q := by
  have hops := map_toInt_injective same
  cases p; cases q
  simpa [Path.hops] using hops

theorem checkHop_eq_ok_iff {hops : List Datum} {element : Datum} {hop : Hop} :
    checkHop hops element = .ok hop ↔ element = .int hop.toInt := by
  cases element with
  | int n =>
    rw [Datum.int.injEq, ← Hop.ofInt?_eq_some_iff]
    cases read : Hop.ofInt? n <;> simp [checkHop, read]
  | _ => simp [checkHop]

theorem map_checkHop_eq_iff {hops elements : List Datum} {found : List Hop} :
    elements.map (checkHop hops) = found.map .ok ↔ elements = data found := by
  induction elements generalizing found with
  | nil => cases found <;> simp [data]
  | cons element rest ih =>
    cases found with
    | nil => simp [data]
    | cons hop more => simp [data, ih, checkHop_eq_ok_iff]

/-- Data are a path exactly when they are the numbers of its hops. -/
theorem ofData_eq_ok_iff {elements : List Datum} {p : Path} :
    ofData elements = .ok p ↔ elements = data p.hops := by
  cases elements with
  | nil => simp [ofData, data, hops]
  | cons element rest =>
    have parts :
        element :: rest = data p.hops ↔ element = .int p.first.toInt ∧ rest = data p.rest := by
      simp [data, hops]
    rw [parts]
    simp only [ofData]
    generalize element :: rest = whole
    constructor
    · intro ok
      cases first : checkHop whole element with
      | error fault => simp [first, bind, Except.bind] at ok
      | ok hop =>
        cases later : rest.mapM (checkHop whole) with
        | error fault => simp [first, later, bind, Except.bind] at ok
        | ok more =>
          simp only [first, later, bind, Except.bind, pure, Except.pure, Except.ok.injEq] at ok
          subst ok
          rw [mapM_eq_ok_iff, map_checkHop_eq_iff] at later
          exact ⟨checkHop_eq_ok_iff.mp first, later⟩
    · intro same
      have first : checkHop whole element = .ok p.first := checkHop_eq_ok_iff.mpr same.1
      have later : rest.mapM (checkHop whole) = .ok p.rest := by
        rw [mapM_eq_ok_iff, map_checkHop_eq_iff]
        exact same.2
      simp [first, later, bind, Except.bind, pure, Except.pure]

/-- Numbers are a path exactly when they are the numbers of it. -/
theorem ofData_map_int_eq_ok_iff {ns : List Int} {p : Path} :
    ofData (ns.map .int) = .ok p ↔ ns = p.numbers := by
  have own : data p.hops = p.numbers.map .int := by
    rw [data, numbers, List.map_map]
    rfl
  rw [ofData_eq_ok_iff, own]
  exact List.map_inj_right fun _ _ => Datum.int.inj

/-- Data that are no path: there are none, or one of them is no integer or one below minus one. -/
def Malformed (elements : List Datum) : Prop :=
  elements = [] ∨ ∃ element ∈ elements, ∀ n, element = .int n → n < -1

theorem exists_data_eq {elements : List Datum}
    (numbers : ∀ element ∈ elements, ∃ n, element = .int n ∧ -1 ≤ n) :
    ∃ found : List Hop, data found = elements := by
  induction elements with
  | nil => exact ⟨[], rfl⟩
  | cons element rest ih =>
    rw [List.forall_mem_cons] at numbers
    obtain ⟨⟨n, same, low⟩, others⟩ := numbers
    obtain ⟨hop, number⟩ := Hop.exists_toInt_eq low
    obtain ⟨more, later⟩ := ih others
    refine ⟨hop :: more, ?_⟩
    rw [same, ← number, ← later]
    rfl

theorem not_malformed_iff {elements : List Datum} :
    ¬ Malformed elements ↔ ∃ p : Path, elements = data p.hops := by
  constructor
  · intro formed
    rw [Malformed, not_or] at formed
    obtain ⟨some, good⟩ := formed
    have numbers : ∀ element ∈ elements, ∃ n, element = .int n ∧ -1 ≤ n := by
      intro element member
      apply Classical.byContradiction
      intro bad
      refine good ⟨element, member, fun n same => ?_⟩
      exact Int.not_le.mp fun low => bad ⟨n, same, low⟩
    obtain ⟨found, same⟩ := exists_data_eq numbers
    cases found with
    | nil => exact absurd same.symm some
    | cons hop more => exact ⟨⟨hop, more⟩, same.symm⟩
  · rintro ⟨p, rfl⟩ (none | ⟨element, member, bad⟩)
    · simp [data, hops] at none
    · obtain ⟨hop, -, rfl⟩ := List.mem_map.mp member
      have low := hop.neg_one_le_toInt
      have below := bad hop.toInt rfl
      omega

theorem exists_numbers_eq_iff {ns : List Int} :
    (∃ p : Path, p.numbers = ns) ↔ ns ≠ [] ∧ ∀ n ∈ ns, -1 ≤ n := by
  constructor
  · rintro ⟨p, rfl⟩
    refine ⟨by simp [numbers, hops], fun n among => ?_⟩
    obtain ⟨hop, -, rfl⟩ := List.mem_map.mp among
    exact hop.neg_one_le_toInt
  · rintro ⟨some, low⟩
    have formed : ¬ Malformed (ns.map .int) := by
      rintro (none | ⟨element, member, bad⟩)
      · exact some (List.map_eq_nil_iff.mp none)
      · obtain ⟨n, listed, rfl⟩ := List.mem_map.mp member
        have below := bad n rfl
        have above := low n listed
        omega
    obtain ⟨p, same⟩ := not_malformed_iff.mp formed
    exact ⟨p, (ofData_map_int_eq_ok_iff.mp (ofData_eq_ok_iff.mpr same)).symm⟩

theorem isAncestorOf_iff_numbers {p q : Path} :
    p.isAncestorOf q = true ↔ p.numbers <+: q.numbers ∧ p.numbers ≠ q.numbers := by
  rw [isAncestorOf_iff]
  constructor
  · rintro ⟨first, ⟨more, rest⟩, shorter⟩
    refine ⟨⟨more.map Hop.toInt, ?_⟩, ?_⟩
    · simp [numbers, hops, first, ← rest]
    · intro same
      have equal := numbers_injective same
      rw [equal] at shorter
      exact Nat.lt_irrefl _ shorter
  · rintro ⟨start, different⟩
    have hops : p.hops <+: q.hops := by
      rw [List.prefix_iff_eq_take] at start ⊢
      rw [numbers, numbers, List.length_map, ← List.map_take] at start
      exact map_toInt_injective start
    rw [Path.hops, Path.hops, List.cons_prefix_cons] at hops
    refine ⟨hops.1, hops.2, Nat.lt_of_le_of_ne hops.2.length_le fun same => different ?_⟩
    rw [numbers, numbers, Path.hops, Path.hops, hops.1, hops.2.eq_of_length same]

end Path

/-! ## Tags by their texts -/

namespace Tag

theorem parse_render (t : Tag) : parse t.render = .ok t := by
  cases t with
  | float p => cases p <;> rfl
  | bottom | integer | pointer | anything => rfl

theorem Kind.name_of_ofName? {text : String} {k : Kind} (found : ofName? text = some k) :
    k.name = text := by
  simpa using List.find?_some found

theorem floatOf_eq_ok {text : String} {t : Tag} (ok : floatOf text = .ok t) :
    ∃ p : Precision, t = .float p ∧ p.name = text := by
  unfold floatOf precisionOf at ok
  cases found : Precision.ofName? text with
  | none => simp [found, bind, Except.bind] at ok
  | some p =>
    simp only [found, bind, Except.bind, pure, Except.pure, Except.ok.injEq] at ok
    exact ⟨p, ok.symm, by simpa using List.find?_some found⟩

/-- The text of a tag is the only one that stands for it. -/
theorem parse_eq_ok_iff {text : String} {t : Tag} : parse text = .ok t ↔ text = t.render := by
  constructor
  · intro ok
    have cut : text = String.ofList (text.toList.takeWhile (· ≠ '@')) ++
        String.ofList (text.toList.dropWhile (· ≠ '@')) := by
      rw [← String.ofList_append, List.takeWhile_append_dropWhile, String.ofList_toList]
    rw [cut]
    unfold parse at ok
    dsimp only at ok
    split at ok
    · cases ok
    · cases ok
    · next c sub named behind =>
      obtain ⟨p, rfl, precise⟩ := floatOf_eq_ok ok
      have at_ : c = '@' := by
        have head := List.head?_dropWhile_not (p := (· ≠ '@')) text.toList
        rw [behind] at head
        simpa using head
      rw [behind, ← Kind.name_of_ofName? named, at_, String.ofList_cons, ← precise]
      rfl
    · next kind _ named behind =>
      rw [behind, ← Kind.name_of_ofName? named]
      cases kind <;> cases ok <;> rfl
    · cases ok
  · rintro rfl
    exact parse_render t

theorem render_injective {a b : Tag} (same : a.render = b.render) : a = b := by
  have read := parse_render a
  rw [same, parse_render b] at read
  exact (Except.ok.inj read).symm

end Tag

/-! ## Sound entries -/

namespace TreeText

variable {text : String} {t : Tree} {es : List WrittenEntry} {ls : List ListedEntry}

/-- An entry is written for a path and a tag. -/
def WrittenEntry.Means (e : WrittenEntry) (p : Path) (tag : Tag) : Prop :=
  e.hops = p.numbers ∧ e.tag = tag.render

/-- An entry is tagged as a scalar or as opaque. -/
def WrittenEntry.IsLeaf (e : WrittenEntry) : Prop :=
  e.tag = Tag.integer.render ∨ (∃ p, e.tag = (Tag.float p).render) ∨ e.tag = Tag.anything.render

/-- Written entries that make a tree. -/
structure Admissible (es : List WrittenEntry) : Prop where
  hops : ∀ e ∈ es, e.hops ≠ [] ∧ ∀ n ∈ e.hops, -1 ≤ n
  tags : ∀ e ∈ es, ∃ tag : Tag, tag ≠ .bottom ∧ e.tag = tag.render
  distinct : (es.map WrittenEntry.hops).Nodup
  onWay : ∀ e ∈ es, ∀ e' ∈ es, e.hops <+: e'.hops → e.hops ≠ e'.hops → ¬ e.IsLeaf

/-- The path of an entry with its tag. -/
def ListedEntry.pair (l : ListedEntry) : Path × Tag := (l.path, l.tag)

theorem WrittenEntry.check_eq_ok_iff {e : WrittenEntry} {l : ListedEntry} :
    e.check = .ok l ↔ e.Means l.path l.tag ∧ l.tag ≠ .bottom ∧ l.start = e.start := by
  obtain ⟨start, path, tag⟩ := l
  unfold check Means
  rw [← Path.ofData_map_int_eq_ok_iff, ← Tag.parse_eq_ok_iff]
  cases Path.ofData (e.hops.map .int) with
  | error fault => simp
  | ok found =>
    cases Tag.parse e.tag with
    | error fault => simp
    | ok known =>
      cases known <;> simp only [Except.ok.injEq, ListedEntry.mk.injEq, reduceCtorEq] <;> grind

theorem firstRepeat?_eq_none_iff {seen : List Path} :
    firstRepeat? seen ls = none ↔
      (ls.map ListedEntry.path).Nodup ∧ ∀ l ∈ ls, l.path ∉ seen := by
  induction ls generalizing seen with
  | nil => simp [firstRepeat?]
  | cons l rest ih =>
    unfold firstRepeat?
    split
    · next repeated => simp [repeated]
    · next fresh =>
      rw [ih, List.map_cons, List.nodup_cons, List.forall_mem_cons]
      constructor
      · rintro ⟨distinct, others⟩
        refine ⟨⟨?_, distinct⟩, fresh, fun x member old => others x member (List.mem_cons_of_mem _ old)⟩
        intro again
        obtain ⟨x, member, same⟩ := List.mem_map.mp again
        exact others x member (same ▸ List.mem_cons_self)
      · rintro ⟨⟨once, distinct⟩, -, others⟩
        refine ⟨distinct, fun x member => ?_⟩
        rw [List.mem_cons, not_or]
        exact ⟨fun same => once (List.mem_map.mpr ⟨x, member, same⟩), others x member⟩

theorem leafAbove?_eq_none_iff {p : Path} :
    leafAbove? ls p = none ↔
      ∀ leaf ∈ ls, leaf.path.isAncestorOf p = true → isLeaf leaf.tag = false := by
  simp only [leafAbove?, List.findSome?_eq_none_iff, List.find?_eq_none, Path.mem_ancestors_iff]
  constructor
  · intro clear leaf among above
    simpa using clear leaf.path above leaf among
  · intro clear q above leaf among
    simp only [Bool.and_eq_true, decide_eq_true_eq, not_and, Bool.not_eq_true]
    rintro rfl
    exact clear leaf among above

theorem firstBeneath?_eq_none_iff :
    firstBeneath? ls = none ↔
      ∀ l ∈ ls, ∀ leaf ∈ ls, leaf.path.isAncestorOf l.path = true → isLeaf leaf.tag = false := by
  simp only [firstBeneath?, List.findSome?_eq_none_iff, Option.map_eq_none_iff,
    leafAbove?_eq_none_iff]

theorem isLeaf_eq_false_iff {tag : Tag} (known : tag ≠ .bottom) :
    isLeaf tag = false ↔ tag = .pointer := by
  cases tag <;> simp_all [isLeaf, Tag.isScalar]

theorem assemble_eq_ok_iff (known : ∀ l ∈ ls, l.tag ≠ .bottom) :
    assemble ls = .ok t ↔
      Tree.Formed (ls.map ListedEntry.pair) ∧ t = Tree.ofEntries .distinct (ls.map ListedEntry.pair) := by
  have formed : Tree.Formed (ls.map ListedEntry.pair) ↔
      firstRepeat? [] ls = none ∧ firstBeneath? ls = none := by
    rw [firstRepeat?_eq_none_iff, firstBeneath?_eq_none_iff]
    constructor
    · rintro ⟨distinct, -, pointers⟩
      refine ⟨⟨by rwa [List.map_map] at distinct, by simp⟩, fun l member leaf among above => ?_⟩
      rw [isLeaf_eq_false_iff (known leaf among)]
      exact pointers _ (List.mem_map_of_mem among) _ (List.mem_map_of_mem member) above
    · rintro ⟨⟨distinct, -⟩, clear⟩
      refine ⟨by rwa [List.map_map], ?_, ?_⟩
      · rintro _ member
        obtain ⟨l, among, rfl⟩ := List.mem_map.mp member
        exact known l among
      · rintro _ member _ member' above
        obtain ⟨leaf, among, rfl⟩ := List.mem_map.mp member
        obtain ⟨l, among', rfl⟩ := List.mem_map.mp member'
        exact (isLeaf_eq_false_iff (known leaf among)).mp (clear l among' leaf among above)
  rw [formed]
  unfold assemble
  cases firstRepeat? [] ls with
  | some e => simp
  | none =>
    cases firstBeneath? ls with
    | some found => simp
    | none =>
      simp only [true_and, and_self, Except.ok.injEq]
      exact eq_comm

theorem known_of_map_check (sound : es.map WrittenEntry.check = ls.map .ok) :
    ∀ l ∈ ls, l.tag ≠ .bottom := by
  intro l member
  have among : Except.ok l ∈ es.map WrittenEntry.check := sound ▸ List.mem_map_of_mem member
  obtain ⟨e, -, ok⟩ := List.mem_map.mp among
  exact (WrittenEntry.check_eq_ok_iff.mp ok).2.1

theorem read_eq_ok_iff :
    read text = .ok t ↔ ∃ (es : List WrittenEntry) (ls : List ListedEntry), Written.tree 0 text.toList es ∧
      es.map WrittenEntry.check = ls.map .ok ∧ Tree.Formed (ls.map ListedEntry.pair) ∧
      t = Tree.ofEntries .distinct (ls.map ListedEntry.pair) := by
  unfold read
  constructor
  · intro ok
    cases written : scan text.toList with
    | error fault => simp [written, bind, Except.bind] at ok
    | ok es =>
      cases sound : es.mapM WrittenEntry.check with
      | error fault => simp [written, sound, bind, Except.bind] at ok
      | ok ls =>
        have assembled : assemble ls = .ok t := by
          simpa [written, sound, bind, Except.bind] using ok
        rw [mapM_eq_ok_iff] at sound
        rw [assemble_eq_ok_iff (known_of_map_check sound)] at assembled
        exact ⟨es, ls, scan_eq_ok_iff.mp written, sound, assembled⟩
  · rintro ⟨es, ls, written, sound, formed⟩
    have assembled := (assemble_eq_ok_iff (known_of_map_check sound)).mpr formed
    rw [← scan_eq_ok_iff] at written
    rw [← mapM_eq_ok_iff] at sound
    simp [written, sound, assembled, bind, Except.bind]

theorem exists_check_of_mem (sound : es.map WrittenEntry.check = ls.map .ok) {e : WrittenEntry}
    (member : e ∈ es) : ∃ l ∈ ls, e.Means l.path l.tag := by
  have among : e.check ∈ ls.map Except.ok := sound ▸ List.mem_map_of_mem member
  obtain ⟨l, listed, ok⟩ := List.mem_map.mp among
  exact ⟨l, listed, (WrittenEntry.check_eq_ok_iff.mp ok.symm).1⟩

theorem exists_means_of_mem (sound : es.map WrittenEntry.check = ls.map .ok) {l : ListedEntry}
    (member : l ∈ ls) : ∃ e ∈ es, e.Means l.path l.tag := by
  have among : Except.ok l ∈ es.map WrittenEntry.check := sound ▸ List.mem_map_of_mem member
  obtain ⟨e, written, ok⟩ := List.mem_map.mp among
  exact ⟨e, written, (WrittenEntry.check_eq_ok_iff.mp ok).1⟩

theorem map_hops_eq (sound : es.map WrittenEntry.check = ls.map .ok) :
    es.map WrittenEntry.hops = ls.map fun l => l.path.numbers :=
  map_eq_of_map_eq_ok sound fun _ _ ok => (WrittenEntry.check_eq_ok_iff.mp ok).1.1

theorem nodup_hops_iff (sound : es.map WrittenEntry.check = ls.map .ok) :
    (es.map WrittenEntry.hops).Nodup ↔ (ls.map ListedEntry.path).Nodup := by
  rw [map_hops_eq sound, List.Nodup, List.Nodup, List.pairwise_map, List.pairwise_map]
  constructor
  · exact List.Pairwise.imp fun different same => different (congrArg Path.numbers same)
  · exact List.Pairwise.imp fun different same => different (Path.numbers_injective same)

theorem WrittenEntry.not_isLeaf_iff {e : WrittenEntry} {p : Path} {tag : Tag} (means : e.Means p tag)
    (known : tag ≠ .bottom) : ¬ e.IsLeaf ↔ tag = .pointer := by
  have same (other : Tag) : e.tag = other.render ↔ tag = other := by
    rw [means.2]
    exact ⟨Tag.render_injective, congrArg Tag.render⟩
  unfold IsLeaf
  simp only [same]
  cases tag <;> simp_all

/-- Entries make a tree when they are sound and in form. -/
theorem admissible_iff :
    Admissible es ↔ ∃ ls : List ListedEntry, es.map WrittenEntry.check = ls.map .ok ∧
      Tree.Formed (ls.map ListedEntry.pair) := by
  constructor
  · rintro ⟨hops, tags, distinct, clear⟩
    have total : ∀ e ∈ es, ∃ l, e.check = .ok l := by
      intro e member
      obtain ⟨p, numbers⟩ := Path.exists_numbers_eq_iff.mpr (hops e member)
      obtain ⟨tag, known, written⟩ := tags e member
      exact ⟨⟨e.start, p, tag⟩,
        WrittenEntry.check_eq_ok_iff.mpr ⟨⟨numbers.symm, written⟩, known, rfl⟩⟩
    obtain ⟨ls, sound⟩ := exists_mapM_eq_ok total
    rw [mapM_eq_ok_iff] at sound
    refine ⟨ls, sound, ?_, ?_, ?_⟩
    · rw [List.map_map]
      exact (nodup_hops_iff sound).mp distinct
    · intro _ member
      obtain ⟨l, listed, rfl⟩ := List.mem_map.mp member
      exact known_of_map_check sound l listed
    · intro _ member _ member' above
      obtain ⟨l, listed, rfl⟩ := List.mem_map.mp member
      obtain ⟨l', listed', rfl⟩ := List.mem_map.mp member'
      obtain ⟨e, written, means⟩ := exists_means_of_mem sound listed
      obtain ⟨e', written', means'⟩ := exists_means_of_mem sound listed'
      have start := Path.isAncestorOf_iff_numbers.mp above
      refine (WrittenEntry.not_isLeaf_iff means (known_of_map_check sound l listed)).mp ?_
      apply clear e written e' written'
      · rw [means.1, means'.1]
        exact start.1
      · rw [means.1, means'.1]
        exact start.2
  · rintro ⟨ls, sound, formed⟩
    constructor
    · intro e member
      obtain ⟨l, -, means⟩ := exists_check_of_mem sound member
      exact Path.exists_numbers_eq_iff.mp ⟨l.path, means.1.symm⟩
    · intro e member
      obtain ⟨l, listed, means⟩ := exists_check_of_mem sound member
      exact ⟨l.tag, known_of_map_check sound l listed, means.2⟩
    · have distinct := formed.distinct
      rw [List.map_map] at distinct
      exact (nodup_hops_iff sound).mpr distinct
    · intro e member e' member' start different
      obtain ⟨l, listed, means⟩ := exists_check_of_mem sound member
      obtain ⟨l', listed', means'⟩ := exists_check_of_mem sound member'
      rw [means.1, means'.1] at start different
      rw [WrittenEntry.not_isLeaf_iff means (known_of_map_check sound l listed)]
      exact formed.pointers _ (List.mem_map_of_mem listed) _ (List.mem_map_of_mem listed')
        (Path.isAncestorOf_iff_numbers.mpr ⟨start, different⟩)

/-- The tree of a text stores exactly what is listed. -/
theorem get?_of_sound (sound : es.map WrittenEntry.check = ls.map .ok)
    (formed : Tree.Formed (ls.map ListedEntry.pair)) (p : Path) (tag : Tag) :
    (Tree.ofEntries .distinct (ls.map ListedEntry.pair)).get? p = some tag ↔
      ∃ e ∈ es, e.Means p tag := by
  rw [formed.get?_ofEntries_eq_some_iff, List.mem_map]
  constructor
  · rintro ⟨l, listed, same⟩
    cases same
    exact exists_means_of_mem sound listed
  · rintro ⟨e, member, numbers, written⟩
    obtain ⟨l, listed, numbers', written'⟩ := exists_check_of_mem sound member
    refine ⟨l, listed, Prod.ext ?_ ?_⟩
    · exact Path.numbers_injective (numbers'.symm.trans numbers)
    · exact Tag.render_injective (written'.symm.trans written)

/-- A text stands for a tree exactly when it is written as one and its entries make a tree, and then
the tree stores these entries and no others. Every other text is refused. -/
theorem read_accepts_exactly (text : String) :
    (∀ t : Tree, (∃ u, read text = .ok u ∧ (u == t) = true) ↔
      ∃ es, Written.tree 0 text.toList es ∧ Admissible es ∧
        ∀ p tag, t.get? p = some tag ↔ ∃ e ∈ es, e.Means p tag) ∧
    ((∃ fault, read text = .error fault) ↔
      ¬ ∃ es, Written.tree 0 text.toList es ∧ Admissible es) := by
  constructor
  · intro t
    constructor
    · rintro ⟨u, ok, same⟩
      obtain ⟨es, ls, written, sound, formed, rfl⟩ := read_eq_ok_iff.mp ok
      refine ⟨es, written, admissible_iff.mpr ⟨ls, sound, formed⟩, fun p tag => ?_⟩
      rw [← Tree.beq_iff.mp same p]
      exact get?_of_sound sound formed p tag
    · rintro ⟨es, written, admissible, stores⟩
      obtain ⟨ls, sound, formed⟩ := admissible_iff.mp admissible
      refine ⟨_, read_eq_ok_iff.mpr ⟨es, ls, written, sound, formed, rfl⟩, ?_⟩
      rw [Tree.beq_iff]
      intro p
      apply Option.ext
      intro tag
      rw [get?_of_sound sound formed, stores]
  · have accepted : (∃ u, read text = .ok u) ↔
        ∃ es, Written.tree 0 text.toList es ∧ Admissible es := by
      constructor
      · rintro ⟨u, ok⟩
        obtain ⟨es, ls, written, sound, formed, -⟩ := read_eq_ok_iff.mp ok
        exact ⟨es, written, admissible_iff.mpr ⟨ls, sound, formed⟩⟩
      · rintro ⟨es, written, admissible⟩
        obtain ⟨ls, sound, formed⟩ := admissible_iff.mp admissible
        exact ⟨_, read_eq_ok_iff.mpr ⟨es, ls, written, sound, formed, rfl⟩⟩
    rw [← accepted]
    cases read text with
    | error fault => simp
    | ok u => simp

end TreeText

end ByteLayout
