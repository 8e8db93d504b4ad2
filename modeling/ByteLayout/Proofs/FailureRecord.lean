import ByteLayout.Proofs.GreedyReading

/-! # Where a text ceases to be a tree

The failure that is reported for a text is the one that the matcher has recorded, and most of what is
recorded on the way is overcome later: an optional part is left out, a list comes to its end. Yet no
place is ever recorded that a written tree could not have led to. The matcher tries a part only where
every text of that part could stand, so whatever lies before the place of a failure is the start of
some written tree. -/

namespace ByteLayout.TreeText

variable {α β : Type} {before text rest : List Char}

/-- A text is the start of a written tree. -/
def Viable (before : List Char) : Prop := ∃ more es, Written.tree 0 (before ++ more) es

theorem Viable.of_append {more : List Char} (viable : Viable (before ++ more)) : Viable before := by
  obtain ⟨last, es, written⟩ := viable
  rw [List.append_assoc] at written
  exact ⟨more ++ last, es, written⟩

/-! ## What may stand behind a text -/

namespace Language

variable {l : Language α} {following : α → Language β} {a : α}

/-- Some text of the language can stand at every position. -/
def Productive (l : Language α) : Prop := ∀ pos, ∃ text a, l pos text a

/-- Every text of the language may stand behind `before`. -/
def Awaited (l : Language α) (before : List Char) : Prop :=
  ∀ text a, l before.length text a → Viable (before ++ text)

theorem Awaited.viable (awaited : l.Awaited before) (productive : l.Productive) : Viable before := by
  obtain ⟨text, a, inside⟩ := productive before.length
  exact (awaited text a inside).of_append

theorem Awaited.first (awaited : (l >>= following).Awaited before)
    (productive : ∀ a, (following a).Productive) : l.Awaited before := by
  intro left a inside
  obtain ⟨right, b, later⟩ := productive a (before.length + left.length)
  have whole := awaited (left ++ right) b ⟨left, right, a, rfl, inside, later⟩
  rw [← List.append_assoc] at whole
  exact whole.of_append

theorem Awaited.later (awaited : (l >>= following).Awaited before) (inside : l before.length text a) :
    (following a).Awaited (before ++ text) := by
  intro right b later
  rw [List.length_append] at later
  rw [List.append_assoc]
  exact awaited (text ++ right) b ⟨text, right, a, rfl, inside, later⟩

theorem Awaited.of_optional (awaited : (optional l).Awaited before) : l.Awaited before :=
  fun text a inside => awaited text (some a) inside

theorem Awaited.of_many (awaited : (many l).Awaited before) : l.Awaited before := by
  intro text a inside
  have once : Many l before.length (text ++ []) [a] := .cons inside (.nil _)
  rw [List.append_nil] at once
  exact awaited text [a] once

theorem Awaited.many_later (awaited : (many l).Awaited before) (inside : l before.length text a) :
    (many l).Awaited (before ++ text) := by
  intro right more later
  rw [List.length_append] at later
  rw [List.append_assoc]
  exact awaited (text ++ right) (a :: more) (.cons inside later)

theorem productive_pure (a : α) : (pure a : Language α).Productive := fun _ => ⟨[], a, rfl, rfl⟩

theorem Productive.bind (first : l.Productive) (later : ∀ a, (following a).Productive) :
    (l >>= following).Productive := by
  intro pos
  obtain ⟨left, a, inside⟩ := first pos
  obtain ⟨right, b, inside'⟩ := later a (pos + left.length)
  exact ⟨left ++ right, b, left, right, a, rfl, inside, inside'⟩

end Language

/-! ## The record -/

/-- What is recorded is a place of the text up to which it is the start of a written tree. -/
def Record.Honest (text : List Char) (record : Record) : Prop :=
  ∀ miss, record = some miss → miss.pos ≤ text.length ∧ Viable (text.take miss.pos)

theorem Record.honest_none (text : List Char) : Record.Honest text none := by
  intro miss same
  cases same

theorem Record.honest_some {expected : Expectation} (viable : Viable before) (rest : List Char) :
    Record.Honest (before ++ rest) (some ⟨before.length, expected⟩) := by
  intro miss same
  cases same
  rw [List.take_left, List.length_append]
  exact ⟨Nat.le_add_right _ _, viable⟩

theorem Record.Honest.noteLiteral {record : Record} (honest : record.Honest (before ++ rest)) (c : Char)
    (viable : Viable before) : (record.noteLiteral c before.length).Honest (before ++ rest) := by
  cases record with
  | none => exact honest_some viable rest
  | some miss => exact honest

theorem Record.Honest.notePart {record : Record} (honest : record.Honest (before ++ rest)) (p : Part)
    (viable : Viable before) : (record.notePart p before.length).Honest (before ++ rest) := by
  cases record with
  | none => exact honest_some viable rest
  | some miss =>
    unfold Record.notePart
    dsimp only
    split
    · exact honest_some viable rest
    · exact honest

/-! ## Matchers and the record -/

namespace Matcher

variable {m : Matcher α} {l : Language α}

/-- A matcher reads texts of a language only, and where every such text may stand it leaves an honest
record. -/
structure Accounts (m : Matcher α) (l : Language α) : Prop where
  sound : m.Sound l
  productive : l.Productive
  honest : ∀ {before rest : List Char} {record : Record}, l.Awaited before →
    record.Honest (before ++ rest) → (m ⟨before.length, rest⟩ record).2.Honest (before ++ rest)

/-- Reading leads from the end of one text to the end of a longer one. -/
theorem Accounts.moved (accounts : m.Accounts l) {record between : Record} {a : α} {cursor : Cursor}
    (ok : m ⟨before.length, rest⟩ record = (some (a, cursor), between)) :
    ∃ read, l before.length read a ∧ before ++ rest = before ++ read ++ cursor.rest ∧
      cursor = ⟨(before ++ read).length, cursor.rest⟩ := by
  obtain ⟨read, cut, moved, inside⟩ := accounts.sound ok
  refine ⟨read, inside, ?_, ?_⟩
  · rw [cut, List.append_assoc]
  · rw [List.length_append, ← moved]

theorem accounts_pure (a : α) : Accounts (pure a) (pure a) where
  sound := sound_pure a
  productive := Language.productive_pure a
  honest _ honest := honest

theorem Accounts.bind {next : α → Matcher β} {following : α → Language β} (first : m.Accounts l)
    (later : ∀ a, (next a).Accounts (following a)) :
    (m >>= next).Accounts (l >>= following) where
  sound := sound_bind first.sound fun a => (later a).sound
  productive := first.productive.bind fun a => (later a).productive
  honest := by
    intro before rest record awaited honest
    have kept := first.honest (awaited.first fun a => (later a).productive) honest
    change (m.andThen next ⟨before.length, rest⟩ record).2.Honest (before ++ rest)
    unfold andThen
    rcases result : m ⟨before.length, rest⟩ record with ⟨_ | ⟨a, cursor⟩, between⟩
    · rwa [result] at kept
    · rw [result] at kept
      obtain ⟨read, inside, cut, place⟩ := first.moved result
      dsimp only at kept ⊢
      rw [cut] at kept ⊢
      rw [place]
      exact (later a).honest (awaited.later inside) kept

theorem accounts_position : Accounts position Language.position where
  sound := sound_position
  productive pos := ⟨[], pos, rfl, rfl⟩
  honest _ honest := honest

theorem accounts_literal (c : Char) : Accounts (literal c) (Language.literal c) where
  sound := sound_literal c
  productive _ := ⟨[c], (), rfl⟩
  honest := by
    intro before rest record awaited honest
    unfold literal
    split
    · exact honest
    · exact honest.noteLiteral c (awaited [c] () rfl).of_append

theorem accounts_run (keep : Char → Bool) : Accounts (run keep) (Language.run keep) where
  sound := sound_run keep
  productive _ := ⟨[], [], rfl, by simp⟩
  honest _ honest := honest

/-- The result of a part has the record of what is inside it, unless that is missed. -/
theorem honest_part {before rest : List Char} {record : Record} (p : Part) (viable : Viable before)
    (inner : (m ⟨before.length, rest⟩ record).2.Honest (before ++ rest)) :
    (part p m ⟨before.length, rest⟩ record).2.Honest (before ++ rest) := by
  unfold part
  rcases result : m ⟨before.length, rest⟩ record with ⟨_ | found, between⟩
  · rw [result] at inner
    exact inner.notePart p viable
  · rwa [result] at inner

theorem Accounts.part (p : Part) (inner : m.Accounts l) : (part p m).Accounts l where
  sound := sound_part p inner.sound
  productive := inner.productive
  honest awaited honest :=
    honest_part p (awaited.viable inner.productive) (inner.honest awaited honest)

theorem accounts_part_lexeme {read? : List Char → Option (α × Nat)} (p : Part)
    (sound : (Matcher.part p (lexeme read?)).Sound l) (productive : l.Productive) :
    (Matcher.part p (lexeme read?)).Accounts l where
  sound := sound
  productive := productive
  honest := by
    intro before rest record awaited honest
    refine honest_part p (awaited.viable productive) ?_
    unfold lexeme
    split
    · exact honest
    · exact honest

theorem Accounts.optional (inner : m.Accounts l) : (optional m).Accounts (Language.optional l) where
  sound := sound_optional inner.sound
  productive _ := ⟨[], none, rfl⟩
  honest := by
    intro before rest record awaited honest
    have kept := inner.honest awaited.of_optional honest
    unfold Matcher.optional
    split
    · exact honest
    · rcases result : m ⟨before.length, rest⟩ record with ⟨_ | ⟨a, cursor⟩, between⟩
      · rwa [result] at kept
      · rwa [result] at kept

theorem Accounts.honest_atMost (inner : m.Accounts l) (n : Nat) {before rest : List Char}
    {record : Record} (awaited : (Language.many l).Awaited before)
    (honest : record.Honest (before ++ rest)) :
    (atMost n m ⟨before.length, rest⟩ record).2.Honest (before ++ rest) := by
  induction n generalizing before rest record with
  | zero => exact honest
  | succ n ih =>
    have kept := inner.honest awaited.of_many honest
    unfold atMost
    split
    · exact honest
    · rcases result : m ⟨before.length, rest⟩ record with ⟨_ | ⟨a, cursor⟩, between⟩
      · rwa [result] at kept
      · rw [result] at kept
        obtain ⟨read, inside, cut, place⟩ := inner.moved result
        dsimp only at kept ⊢
        split
        · exact kept
        · -- The next round starts behind what was read, where the whole list is still awaited.
          have onward := ih (awaited.many_later inside) (cut ▸ kept)
          rw [← place, ← cut] at onward
          unfold andThen
          rcases more : atMost n m cursor between with ⟨_ | ⟨as, last⟩, final⟩
          · rwa [more] at onward
          · rwa [more] at onward

theorem Accounts.many (inner : m.Accounts l) : (many m).Accounts (Language.many l) where
  sound := sound_many inner.sound
  productive pos := ⟨[], [], .nil pos⟩
  honest awaited honest := inner.honest_atMost _ awaited honest

end Matcher

/-! ## The parts of a written tree -/

open Matcher

theorem accounts_blanks : blanks.Accounts Written.blanks :=
  (accounts_run isBlank).bind fun _ => accounts_pure _

theorem accounts_separator (c : Char) : (separator c).Accounts (Written.separator c) :=
  accounts_blanks.bind fun _ => (accounts_literal c).bind fun _ => accounts_blanks

/-- Items with commas between them. -/
theorem accounts_separated {item : Matcher α} {l : Language α} (p : Part) (inner : item.Accounts l) :
    Accounts
      (Matcher.part p do
        let first ← item
        let more ← Matcher.many do
          separator ','
          item
        return first :: more)
      (do
        let first ← l
        let more ← Language.many do
          Written.separator ','
          l
        return first :: more) :=
  .part p (inner.bind fun _ =>
    (Accounts.many ((accounts_separator ',').bind fun _ => inner)).bind fun _ => accounts_pure _)

theorem accounts_int : int.Accounts Written.int :=
  accounts_part_lexeme _ sound_int fun pos =>
    ⟨['0'], _, Written.int_iff.mpr
      ⟨[], ['0'], 1, rfl, Or.inl ⟨rfl, rfl⟩, by simp, List.all_eq_true.mp (by decide), rfl⟩⟩

theorem accounts_hops : hops.Accounts Written.hops := accounts_separated _ accounts_int

theorem accounts_path : path.Accounts Written.path :=
  .part _ ((accounts_literal '[').bind fun _ => accounts_blanks.bind fun _ =>
    accounts_hops.optional.bind fun _ => accounts_blanks.bind fun _ =>
      (accounts_literal ']').bind fun _ => accounts_pure _)

theorem accounts_name : name.Accounts Written.name :=
  accounts_part_lexeme _ sound_name fun _ => ⟨['x'], ['x'], rfl, 'x', [], rfl, by decide, by simp⟩

theorem accounts_precision : precision.Accounts Written.precision :=
  .part _ ((accounts_literal '@').bind fun _ => accounts_name.bind fun _ => accounts_pure _)

theorem accounts_tag : tag.Accounts Written.tag :=
  .part _ (accounts_name.bind fun _ => accounts_precision.optional.bind fun _ => accounts_pure _)

theorem accounts_entry : entry.Accounts Written.entry :=
  .part _ (accounts_position.bind fun _ => accounts_path.bind fun _ =>
    (accounts_separator ':').bind fun _ => accounts_position.bind fun _ =>
      accounts_tag.bind fun _ => accounts_pure _)

theorem accounts_entries : entries.Accounts Written.entries := accounts_separated _ accounts_entry

/-- Whatever is recorded while a tree is looked for, the text before it is the start of one. -/
theorem accounts_tree : tree.Accounts Written.tree :=
  .part _ ((accounts_separator openBrace).bind fun _ => accounts_entries.optional.bind fun _ =>
    (accounts_separator closeBrace).bind fun _ => accounts_pure _)

/-! ## The report -/

/-- Blanks behind a written tree belong to it. -/
theorem Written.tree_append_blank {pos : Nat} {es : List WrittenEntry} (written : Written.tree pos text es)
    {after : List Char} (blank : Blank after) : Written.tree pos (text ++ after) es := by
  obtain ⟨opened, _, u, rfl, inside, listed, _, found, rfl, inside', closed, _, u', rfl, inside'', rfl,
    rfl⟩ := written
  obtain ⟨gap, last, rfl, blankGap, blankLast⟩ := Written.separator_iff.mp inside''
  refine ⟨opened, listed ++ (gap ++ closeBrace :: (last ++ after)), u, by simp, inside,
    listed, gap ++ closeBrace :: (last ++ after), found, rfl, inside',
    gap ++ closeBrace :: (last ++ after), [], u', by simp, ?_, rfl, rfl⟩
  exact Written.separator_iff.mpr ⟨gap, last ++ after, rfl, blankGap, blankLast.append blank⟩

/-- When a text starts with a written tree, the matcher reads at least that. -/
theorem exists_tree_of_written {es : List WrittenEntry} (written : Written.tree 0 text es)
    (rest : List Char) :
    ∃ cursor record, tree ⟨0, text ++ rest⟩ none = (some (es, cursor), record) ∧
      text.length ≤ cursor.pos := by
  have blank : Blank (rest.takeWhile isBlank) := List.all_eq_true.mp List.all_takeWhile
  have halts : Halts isBlank (rest.dropWhile isBlank) := by
    intro c head
    have no := List.head?_dropWhile_not (p := isBlank) rest
    rw [head] at no
    simpa using no
  obtain ⟨record, ok⟩ := complete_tree (Written.tree_append_blank written blank) halts none
  rw [List.append_assoc, List.takeWhile_append_dropWhile] at ok
  refine ⟨_, record, ok, ?_⟩
  rw [Nat.zero_add, List.length_append]
  exact Nat.le_add_right _ _

/-- What a scan reports lies behind the start of a written tree, and behind every written tree that the
text starts with. -/
theorem scan_error_behind {cs : List Char} {fault : Fault} (failed : scan cs = .error fault) :
    fault.position ≤ cs.length ∧ Viable (cs.take fault.position) ∧
      ∀ n, (∃ es, Written.tree 0 (cs.take n) es) → n ≤ fault.position := by
  have short : ∀ n, (∃ es, Written.tree 0 (cs.take n) es) → (cs.take n).length = n := by
    rintro n ⟨es, written⟩
    by_cases inside : n ≤ cs.length
    · exact List.length_take_of_le inside
    · rw [List.take_of_length_le (by omega), ← scan_eq_ok_iff, failed] at written
      cases written
  have started : ∀ n, (∃ es, Written.tree 0 (cs.take n) es) →
      ∃ es cursor record, tree ⟨0, cs⟩ none = (some (es, cursor), record) ∧ n ≤ cursor.pos := by
    intro n starts
    obtain ⟨es, written⟩ := starts
    obtain ⟨cursor, record, ok, reached⟩ := exists_tree_of_written written (cs.drop n)
    rw [List.take_append_drop] at ok
    rw [short n ⟨es, written⟩] at reached
    exact ⟨es, cursor, record, ok, reached⟩
  unfold scan at failed
  split at failed
  · next found cursor record result =>
    split at failed
    · cases failed
    · -- A tree was read, and something is left behind it.
      cases failed
      obtain ⟨read, cut, moved, inside⟩ := sound_tree result
      rw [Nat.zero_add] at moved
      dsimp only
      refine ⟨?_, ?_, ?_⟩
      · rw [cut, moved, List.length_append]
        exact Nat.le_add_right _ _
      · rw [cut, moved, List.take_left]
        exact ⟨[], found, by rwa [List.append_nil]⟩
      · intro n starts
        obtain ⟨es, cursor', record', ok, reached⟩ := started n starts
        rw [result] at ok
        cases ok
        exact reached
  · next record result =>
    cases failed
    have awaited : Written.tree.Awaited [] := fun text es written => ⟨[], es, by rwa [List.append_nil]⟩
    have honest : (tree ⟨([] : List Char).length, cs⟩ none).2.Honest ([] ++ cs) :=
      accounts_tree.honest awaited (Record.honest_none _)
    rw [List.length_nil, result] at honest
    have place : (record.getD ⟨0, .part .tree⟩).pos ≤ cs.length ∧
        Viable (cs.take (record.getD ⟨0, .part .tree⟩).pos) := by
      cases record with
      | none => exact ⟨Nat.zero_le _, awaited.viable accounts_tree.productive⟩
      | some miss => exact honest miss rfl
    refine ⟨place.1, place.2, fun n starts => ?_⟩
    obtain ⟨es, cursor, record', ok, -⟩ := started n starts
    rw [result] at ok
    cases ok

/-- A text that is not written as a tree is refused at one of its places. What lies before that place
could have gone on to a written tree, and no written tree that the text starts with ends behind it. -/
theorem read_refuses_behind_viable_text (text : String) (no : ¬ ∃ es, Written.tree 0 text.toList es) :
    ∃ fault, read text = .error fault ∧ fault.position ≤ text.length ∧
      (∃ more es, Written.tree 0 (text.toList.take fault.position ++ more) es) ∧
      ∀ n, (∃ es, Written.tree 0 (text.toList.take n) es) → n ≤ fault.position := by
  cases scanned : scan text.toList with
  | ok es => exact absurd ⟨es, scan_eq_ok_iff.mp scanned⟩ no
  | error fault =>
    obtain ⟨inside, viable, behind⟩ := scan_error_behind scanned
    rw [String.length_toList] at inside
    refine ⟨fault, ?_, inside, viable, behind⟩
    simp [read, scanned, bind, Except.bind]

/-- A text that lacks a precision in its second entry and most of the third one. -/
def brokenTwice : String := "\x7b[-1]:Pointer, [-1,0]:Float@, [\x7d"

/-- The missing precision is reported, although the matcher then goes on without one and gives up in
front of it. -/
theorem read_refuses_behind_viable_text_brokenTwice :
    (¬ ∃ es, Written.tree 0 brokenTwice.toList es) ∧
      ∃ fault, read brokenTwice = .error fault ∧ fault.position ≤ brokenTwice.length ∧
        (∃ more es, Written.tree 0 (brokenTwice.toList.take fault.position ++ more) es) ∧
        ∀ n, (∃ es, Written.tree 0 (brokenTwice.toList.take n) es) → n ≤ fault.position := by
  have no : ¬ ∃ es, Written.tree 0 brokenTwice.toList es := by
    rintro ⟨es, written⟩
    have refused : (scan brokenTwice.toList).isOk = false := by decide +kernel
    rw [scan_eq_ok_iff.mpr written] at refused
    cases refused
  exact ⟨no, read_refuses_behind_viable_text brokenTwice no⟩

end ByteLayout.TreeText
