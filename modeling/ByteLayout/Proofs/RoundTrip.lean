import ByteLayout.Proofs.AcceptedText

/-! # Reading what was written

The text of a well-formed tree is read back as the same tree. Trees that store the same have the same
text, because the paths of a tree are written in an order that only depends on them. Hence the text
of a tree is a canonical form: reading a text and writing the tree again changes nothing more. -/

namespace ByteLayout

/-! ## The order of paths -/

namespace Path

theorem compareHops_eq_compareLex (as bs : List Hop) :
    compareHops as bs = List.compareLex Ord.compare (as.map Hop.toInt) (bs.map Hop.toInt) := by
  induction as generalizing bs with
  | nil => cases bs <;> simp [compareHops, List.compareLex]
  | cons a rest ih =>
    cases bs with
    | nil => simp [compareHops, List.compareLex]
    | cons b more => simp [compareHops, List.compareLex_cons_cons, ih]

theorem le_iff {p q : Path} :
    p.le q = true ↔ (List.compareLex Ord.compare p.numbers q.numbers).isLE = true := by
  unfold le compare
  rw [compareHops_eq_compareLex]
  change _ ↔ (List.compareLex Ord.compare (p.hops.map Hop.toInt) (q.hops.map Hop.toInt)).isLE = true
  cases List.compareLex Ord.compare (p.hops.map Hop.toInt) (q.hops.map Hop.toInt) <;> decide

theorem le_trans {p q r : Path} (pq : p.le q = true) (qr : q.le r = true) : p.le r = true := by
  rw [le_iff] at *
  exact Std.TransCmp.isLE_trans pq qr

theorem le_total (p q : Path) : (p.le q || q.le p) = true := by
  rw [Bool.or_eq_true, le_iff, le_iff]
  by_cases before : (List.compareLex Ord.compare p.numbers q.numbers).isLE = true
  · exact Or.inl before
  · right
    rw [Std.OrientedCmp.lt_of_not_isLE before]
    rfl

theorem le_antisymm {p q : Path} (pq : p.le q = true) (qp : q.le p = true) : p = q := by
  rw [le_iff] at pq qp
  exact numbers_injective (Std.LawfulEqCmp.eq_of_compare (Std.OrientedCmp.isLE_antisymm pq qp))

end Path

namespace Tree

variable {a b t : Tree}

theorem sortedEntries_perm (t : Tree) : t.sortedEntries.Perm t.entries := List.mergeSort_perm _ _

theorem pairwise_sortedEntries (t : Tree) :
    t.sortedEntries.Pairwise fun x y => x.1.le y.1 = true := by
  have trans (x y z : Path × Tag) (xy : x.1.le y.1 = true) (yz : y.1.le z.1 = true) :
      x.1.le z.1 = true := Path.le_trans xy yz
  have total (x y : Path × Tag) : (x.1.le y.1 || y.1.le x.1) = true := Path.le_total x.1 y.1
  exact List.pairwise_mergeSort trans total t.entries

/-- Trees that store the same list it in the same order. -/
theorem sortedEntries_eq_of_beq (same : (a == b) = true) : a.sortedEntries = b.sortedEntries := by
  have members (x : Path × Tag) : x ∈ a.entries ↔ x ∈ b.entries := by
    obtain ⟨p, tag⟩ := x
    rw [mem_entries_iff, mem_entries_iff, beq_iff.mp same p]
  have nodup (t : Tree) : t.entries.Nodup :=
    (List.pairwise_map.mp t.map.nodup).imp fun different same => different (congrArg Prod.fst same)
  have perm : a.entries.Perm b.entries :=
    (List.perm_ext_iff_of_nodup (nodup a) (nodup b)).mpr members
  refine List.Perm.eq_of_pairwise ?_ (pairwise_sortedEntries a) (pairwise_sortedEntries b)
    ((sortedEntries_perm a).trans (perm.trans (sortedEntries_perm b).symm))
  rintro ⟨p, tag⟩ ⟨q, other⟩ inA inB before after
  have path : p = q := Path.le_antisymm before after
  subst path
  have readA := mem_entries_iff.mp ((sortedEntries_perm a).mem_iff.mp inA)
  have readB := mem_entries_iff.mp ((sortedEntries_perm b).mem_iff.mp inB)
  rw [beq_iff.mp same p, readB] at readA
  cases readA
  rfl

theorem render_eq_of_beq (same : (a == b) = true) : a.render = b.render := by
  unfold render
  rw [sortedEntries_eq_of_beq same]

end Tree

/-! ## Written forms belong to the language -/

namespace TreeText

theorem intercalate_cons {α : Type} (gap first : List α) (more : List (List α)) :
    gap.intercalate (first :: more) = first ++ more.flatMap (gap ++ ·) := by
  induction more generalizing first with
  | nil => simp
  | cons second rest ih => rw [List.intercalate_cons_cons, ih, List.flatMap_cons]; simp

section Separated

variable {α β γ : Type} {l : Language α} {text : β → List Char} {g : α → γ} {k : β → γ}
  {gap : List Char}

theorem exists_many (blank : Blank gap) (item : ∀ pos x, ∃ a, l pos (text x) a ∧ g a = k x)
    (xs : List β) (pos : Nat) :
    ∃ more, Language.Many (do Written.separator ','; l) pos
      ((xs.map text).flatMap (',' :: gap ++ ·)) more ∧ more.map g = xs.map k := by
  induction xs generalizing pos with
  | nil => exact ⟨[], .nil pos, rfl⟩
  | cons x rest ih =>
    obtain ⟨a, inside, means⟩ := item (pos + (',' :: gap).length) x
    obtain ⟨more, later, meanings⟩ := ih (pos + (',' :: gap ++ text x).length)
    refine ⟨a :: more, ?_, by rw [List.map_cons, List.map_cons, means, meanings]⟩
    have separated : Written.separator ',' pos (',' :: gap) () :=
      Written.separator_iff.mpr ⟨[], gap, rfl, blank_nil, blank⟩
    exact .cons ⟨',' :: gap, text x, (), rfl, separated, inside⟩ later

/-- Items that are written one by one can be written with commas between them. -/
theorem exists_separated (blank : Blank gap) (item : ∀ pos x, ∃ a, l pos (text x) a ∧ g a = k x)
    (x : β) (xs : List β) (pos : Nat) :
    ∃ found, (do
        let first ← l
        let more ← Language.many do
          Written.separator ','
          l
        return first :: more : Language (List α))
      pos ((',' :: gap).intercalate ((x :: xs).map text)) found ∧ found.map g = (x :: xs).map k := by
  obtain ⟨a, inside, means⟩ := item pos x
  obtain ⟨more, later, meanings⟩ := exists_many blank item xs (pos + (text x).length)
  refine ⟨a :: more, ?_, by rw [List.map_cons, List.map_cons, means, meanings]⟩
  rw [List.map_cons, intercalate_cons]
  exact ⟨text x, _, a, rfl, inside, _, [], more, (List.append_nil _).symm, later, rfl, rfl⟩

end Separated

namespace Written

theorem int_toString (hop : Hop) (pos : Nat) :
    int pos (toString hop.toInt).toList hop.toInt := by
  cases hop with
  | any =>
    exact int_iff.mpr ⟨['-'], ['1'], -1, rfl, Or.inr (Or.inr ⟨rfl, rfl⟩), by decide,
      List.all_eq_true.mp (by decide), by decide⟩
  | byte n =>
    have text : (toString (Hop.byte n).toInt).toList = Nat.toDigits 10 n := by
      change n.repr.toList = _
      rw [Nat.repr_eq_ofList_toDigits, String.toList_ofList]
    rw [text, int_iff]
    refine ⟨[], Nat.toDigits 10 n, 1, rfl, Or.inl ⟨rfl, rfl⟩, Nat.toDigits_ne_nil, ?_, ?_⟩
    · intro c member
      exact Nat.isDigit_of_mem_toDigits (by decide) (by decide) member
    · have value : digitsValue (Nat.toDigits 10 n) = n := by
        have read := Nat.ofDigitChars_ten_toDigits (n := n)
        rwa [Nat.ofDigitChars_eq_foldl] at read
      rw [value, Int.one_mul]
      rfl

theorem path_render (p : Path) (pos : Nat) : path pos p.render.toList p.numbers := by
  obtain ⟨found, inside, same⟩ := exists_separated (g := id) (k := Hop.toInt) blank_nil
    (fun pos hop => ⟨hop.toInt, int_toString hop pos, rfl⟩) p.first p.rest (pos + 1)
  rw [List.map_id] at same
  refine path_iff.mpr ⟨[], _, [], some found, ?_, blank_nil, inside, blank_nil, same.symm⟩
  simp [Path.render, Path.hops, String.toList_intercalate, Function.comp_def]

theorem name_of_kind (kind : Tag.Kind) (pos : Nat) : name pos kind.name.toList kind.name.toList := by
  cases kind <;> exact ⟨rfl, _, _, rfl, by decide, List.all_eq_true.mp (by decide)⟩

theorem name_of_precision (p : Precision) (pos : Nat) : name pos p.name.toList p.name.toList := by
  cases p <;> exact ⟨rfl, _, _, rfl, by decide, List.all_eq_true.mp (by decide)⟩

theorem tag_render (t : Tag) (pos : Nat) : tag pos t.render.toList t.render := by
  unfold Tag.render
  cases precise : t.precision? with
  | none =>
    exact ⟨_, [], _, by simp, name_of_kind t.kind pos, [], [], none, rfl, rfl, rfl, by simp⟩
  | some p =>
    refine ⟨_, '@' :: p.name.toList, _, by simp, name_of_kind t.kind pos, '@' :: p.name.toList, [],
      some _, by simp, ⟨['@'], p.name.toList, (), rfl, rfl, p.name.toList, [], _, by simp,
        name_of_precision p _, rfl, rfl⟩, rfl, ?_⟩
    simp [String.ofList_append, String.append_assoc]

theorem entry_render (p : Path) (t : Tag) (pos : Nat) :
    ∃ e, entry pos (p.render ++ ":" ++ t.render).toList e ∧
      (e.hops, e.tag) = (p.numbers, t.render) := by
  have colon : separator ':' (pos + p.render.toList.length) [':'] () :=
    separator_iff.mpr ⟨[], [], rfl, blank_nil, blank_nil⟩
  have text : (p.render ++ ":" ++ t.render).toList =
      p.render.toList ++ ([':'] ++ t.render.toList) := by simp
  rw [text]
  refine ⟨⟨pos, p.numbers, pos + p.render.toList.length + 1, t.render⟩, ?_, rfl⟩
  exact ⟨[], _, pos, rfl, ⟨rfl, rfl⟩, p.render.toList, _, _, rfl, path_render p pos, [':'], _, (), rfl,
    colon, [], _, _, rfl, ⟨rfl, rfl⟩, t.render.toList, [], _, (List.append_nil _).symm,
    tag_render t _, rfl, rfl⟩

/-- The text of a tree is written as its entries, in order. -/
theorem tree_render (t : Tree) :
    ∃ es, tree 0 t.render.toList es ∧ es.map (fun e => (e.hops, e.tag)) =
      t.sortedEntries.map fun x => (x.1.numbers, x.2.render) := by
  have text : t.render.toList = [openBrace] ++ ([',', ' '].intercalate
      (t.sortedEntries.map fun x => (x.1.render ++ ":" ++ x.2.render).toList) ++ [closeBrace]) := by
    simp [Tree.render, String.toList_intercalate, Function.comp_def, openBrace, closeBrace]
  have opened : separator openBrace 0 [openBrace] () :=
    separator_iff.mpr ⟨[], [], rfl, blank_nil, blank_nil⟩
  have closed (pos : Nat) : separator closeBrace pos [closeBrace] () :=
    separator_iff.mpr ⟨[], [], rfl, blank_nil, blank_nil⟩
  rw [text]
  cases t.sortedEntries with
  | nil => exact ⟨[], ⟨_, _, (), rfl, opened, [], _, none, rfl, rfl, _, [], (), rfl, closed _, rfl, rfl⟩,
      rfl⟩
  | cons x rest =>
    have blank : Blank [' '] := by
      intro c member
      rw [List.mem_singleton] at member
      subst member
      decide
    obtain ⟨es, inside, meanings⟩ := exists_separated (g := fun e : WrittenEntry => (e.hops, e.tag))
      (k := fun x : Path × Tag => (x.1.numbers, x.2.render)) blank
      (fun pos x => entry_render x.1 x.2 pos) x rest 1
    exact ⟨es, ⟨_, _, (), rfl, opened, _, _, some es, rfl, inside, _, [], (), rfl, closed _, rfl, rfl⟩,
      meanings⟩

end Written

theorem exists_listed {es : List WrittenEntry} {xs : List (Path × Tag)}
    (known : ∀ x ∈ xs, x.2 ≠ .bottom)
    (same : es.map (fun e => (e.hops, e.tag)) = xs.map fun x => (x.1.numbers, x.2.render)) :
    ∃ ls : List ListedEntry, es.map WrittenEntry.check = ls.map .ok ∧
      ls.map ListedEntry.pair = xs := by
  induction xs generalizing es with
  | nil =>
    cases es with
    | nil => exact ⟨[], rfl, rfl⟩
    | cons e more => cases same
  | cons x rest ih =>
    cases es with
    | nil => cases same
    | cons e more =>
      rw [List.map_cons, List.map_cons, List.cons.injEq, Prod.mk.injEq] at same
      obtain ⟨means, later⟩ := same
      obtain ⟨ls, sound, pairs⟩ := ih (fun y member => known y (List.mem_cons_of_mem _ member)) later
      have first : e.check = .ok ⟨e.start, x.1, x.2⟩ :=
        WrittenEntry.check_eq_ok_iff.mpr ⟨means, known x List.mem_cons_self, rfl⟩
      refine ⟨⟨e.start, x.1, x.2⟩ :: ls, ?_, ?_⟩
      · rw [List.map_cons, List.map_cons, first, sound]
      · rw [List.map_cons, pairs]
        rfl

/-- The text of a well-formed tree is read back as the same tree. -/
theorem exists_read_render {t : Tree} (wf : t.WellFormed) :
    ∃ u, read t.render = .ok u ∧ (u == t) = true := by
  have formed : Tree.Formed t.sortedEntries := wf.formed.of_perm t.sortedEntries_perm
  obtain ⟨es, written, meanings⟩ := Written.tree_render t
  obtain ⟨ls, sound, pairs⟩ := exists_listed formed.known meanings
  rw [← pairs] at formed
  refine ⟨_, read_eq_ok_iff.mpr ⟨es, ls, written, sound, formed, rfl⟩, ?_⟩
  rw [Tree.beq_iff]
  intro p
  apply Option.ext
  intro tag
  rw [formed.get?_ofEntries_eq_some_iff, pairs, t.sortedEntries_perm.mem_iff, Tree.mem_entries_iff]

theorem wellFormed_of_read {text : String} {t : Tree} (ok : read text = .ok t) : t.WellFormed := by
  obtain ⟨-, ls, -, -, -, rfl⟩ := read_eq_ok_iff.mp ok
  exact Tree.wellFormed_normalize _ _

/-- Writing and reading a well-formed tree gives it back. Two of them have the same text exactly when
they are equal. Whatever a text stands for is well-formed, and its text is a canonical form, which
stands for the same and is the text of what it stands for. -/
theorem read_render_roundTrip :
    (∀ t : Tree, t.WellFormed → ∃ u, read t.render = .ok u ∧ (u == t) = true) ∧
    (∀ a b : Tree, a.WellFormed → b.WellFormed → (a.render = b.render ↔ (a == b) = true)) ∧
    (∀ text t, read text = .ok t →
      t.WellFormed ∧ ∃ u, read t.render = .ok u ∧ (u == t) = true ∧ u.render = t.render) := by
  refine ⟨fun t wf => exists_read_render wf, fun a b wfA wfB => ⟨fun texts => ?_, Tree.render_eq_of_beq⟩,
    fun text t ok => ⟨wellFormed_of_read ok, ?_⟩⟩
  · obtain ⟨u, readA, sameA⟩ := exists_read_render wfA
    obtain ⟨v, readB, sameB⟩ := exists_read_render wfB
    rw [texts, readB] at readA
    cases readA
    rw [Tree.beq_iff] at *
    intro p
    rw [← sameA p, sameB p]
  · obtain ⟨u, again, same⟩ := exists_read_render (wellFormed_of_read ok)
    exact ⟨u, again, same, Tree.render_eq_of_beq same⟩

/-- A text in disorder, with blanks, a sign and leading zeros. -/
def disorder : String :=
  "\x7b [-1,+0018446744073709551616] :Float@x86_fp80,[ -1 ]\n: Pointer \x7d"

/-- The entries that stand there. -/
def farNumber : List (Path × Tag) :=
  [(⟨.any, [.byte 18446744073709551616]⟩, .float .x86fp80), (.root, .pointer)]

/-- The tree of these entries is read back. Its text does not depend on their order, and it differs
from the text without the number. What the text in disorder stands for is read back as well. -/
theorem read_render_roundTrip_disorder :
    (∃ u, read (Tree.ofEntries .distinct farNumber).render = .ok u ∧
      (u == Tree.ofEntries .distinct farNumber) = true) ∧
    ((Tree.ofEntries .distinct farNumber).render =
        (Tree.ofEntries .distinct farNumber.reverse).render ∧
      (Tree.ofEntries .distinct farNumber).render ≠ (Tree.scalar .pointer).render) ∧
    ∃ t u, read disorder = .ok t ∧ t.entries = farNumber ∧
      read t.render = .ok u ∧ (u == t) = true ∧ u.render = t.render := by
  have wf (es : List (Path × Tag)) : (Tree.ofEntries .distinct es).WellFormed :=
    Tree.wellFormed_ofEntries _ es
  obtain ⟨readBack, sameText, canonical⟩ := read_render_roundTrip
  refine ⟨readBack _ (wf farNumber), ⟨?_, ?_⟩, ?_⟩
  · exact (sameText _ _ (wf farNumber) (wf farNumber.reverse)).mpr (by decide)
  · intro texts
    have same := (sameText _ _ (wf farNumber) (wf [(.root, .pointer)])).mp texts
    exact absurd same (by decide)
  · have found : (read disorder).toOption.map Tree.entries = some farNumber := by decide +kernel
    cases ok : read disorder with
    | error fault =>
      rw [ok] at found
      cases found
    | ok t =>
      rw [ok] at found
      obtain ⟨-, u, again, same, text⟩ := canonical disorder t ok
      exact ⟨t, u, rfl, Option.some.inj found, again, same, text⟩

end TreeText

end ByteLayout
