import ByteLayout.Proofs.WrittenLanguage
import ByteLayout.TreeText.Reader

/-! # Reading from left to right misses nothing

The matcher takes the longest run of blanks, digits or name characters, tries an optional part
wherever it could stand and never goes back. That loses no text of the language: behind every part
stands a character that cannot go on with it, so that there is only one way to cut the text. -/

namespace ByteLayout.TreeText

/-- A text does not start with a character of a class. -/
def Halts (keep : Char → Bool) (text : List Char) : Prop := ∀ c, text.head? = some c → keep c = false

/-- All characters are blank. -/
def Blank (text : List Char) : Prop := ∀ c ∈ text, isBlank c = true

/-- A text starts with a character that is not blank. -/
def Visible (text : List Char) : Prop := ∃ c rest, text = c :: rest ∧ isBlank c = false

/-- The first character that is not blank is there, and it is no comma. -/
def Ends (text : List Char) : Prop :=
  ∃ before c after, text = before ++ c :: after ∧ Blank before ∧ isBlank c = false ∧ c ≠ ','

theorem halts_cons {keep : Char → Bool} {c : Char} (no : keep c = false) (rest : List Char) :
    Halts keep (c :: rest) := by
  intro d head
  cases head
  exact no

theorem halts_nil (keep : Char → Bool) : Halts keep [] := by
  intro c head
  cases head

theorem Visible.halts {text : List Char} (visible : Visible text) : Halts isBlank text := by
  obtain ⟨c, more, rfl, no⟩ := visible
  exact halts_cons no _

theorem Visible.append {text : List Char} (visible : Visible text) (rest : List Char) :
    Visible (text ++ rest) := by
  obtain ⟨c, more, rfl, no⟩ := visible
  exact ⟨c, more ++ rest, rfl, no⟩

theorem Blank.append {left right : List Char} (blankL : Blank left) (blankR : Blank right) :
    Blank (left ++ right) := by
  intro c member
  rcases List.mem_append.mp member with first | later
  · exact blankL c first
  · exact blankR c later

/-- Behind blanks and another character that is not of the class stands no character of it, if the
class has no blanks. -/
theorem halts_blank_append {keep : Char → Bool} (none : ∀ c, isBlank c = true → keep c = false)
    {before : List Char} (blank : Blank before) {c : Char} (no : keep c = false)
    (after : List Char) : Halts keep (before ++ c :: after) := by
  cases before with
  | nil => exact halts_cons no after
  | cons d more => exact halts_cons (none d (blank d List.mem_cons_self)) _

theorem takeWhile_append_of_halts {keep : Char → Bool} {left right : List Char}
    (all : ∀ c ∈ left, keep c = true) (halts : Halts keep right) :
    (left ++ right).takeWhile keep = left := by
  have stop : right.takeWhile keep = [] := by
    cases right with
    | nil => rfl
    | cons c rest => rw [List.takeWhile_cons, halts c rfl]; rfl
  rw [List.takeWhile_append_of_pos all, stop, List.append_nil]

/-! ## Classes of characters -/

theorem isBlank_iff {c : Char} : isBlank c = true ↔
    ∃ range ∈ blankRanges, range.1 ≤ c.toNat ∧ c.toNat ≤ range.2 := by
  simp [isBlank]

theorem isDigit_iff {c : Char} : isDigit c = true ↔ 48 ≤ c.toNat ∧ c.toNat ≤ 57 := by
  simp only [isDigit, Bool.and_eq_true, decide_eq_true_eq]
  exact Iff.rfl

theorem isNameStart_iff {c : Char} : isNameStart c = true ↔
    (65 ≤ c.toNat ∧ c.toNat ≤ 90) ∨ (97 ≤ c.toNat ∧ c.toNat ≤ 122) ∨ c = '_' := by
  simp only [isNameStart, Bool.or_eq_true, Bool.and_eq_true, decide_eq_true_eq, or_assoc]
  exact Iff.rfl

theorem isBlank_of_isDigit {c : Char} (digit : isDigit c = true) : isBlank c = false := by
  rw [isDigit_iff] at digit
  rw [Bool.eq_false_iff, ne_eq, isBlank_iff]
  simp [blankRanges]
  omega

theorem isBlank_of_isNameStart {c : Char} (start : isNameStart c = true) : isBlank c = false := by
  rw [isNameStart_iff] at start
  rw [Bool.eq_false_iff, ne_eq, isBlank_iff]
  rcases start with upper | lower | rfl
  · simp [blankRanges]
    omega
  · simp [blankRanges]
    omega
  · decide

theorem isDigit_of_isBlank (c : Char) (blank : isBlank c = true) : isDigit c = false := by
  rw [Bool.eq_false_iff]
  intro digit
  rw [isBlank_of_isDigit digit] at blank
  cases blank

/-- Characters that can go on with a tag. -/
def goesOn (c : Char) : Bool := isNameChar c || c = '@'

theorem goesOn_of_isBlank (c : Char) (blank : isBlank c = true) : goesOn c = false := by
  rw [Bool.eq_false_iff]
  intro more
  simp only [goesOn, isNameChar, Bool.or_eq_true, decide_eq_true_eq] at more
  rcases more with (start | digit) | rfl
  · rw [isBlank_of_isNameStart start] at blank
    cases blank
  · rw [isBlank_of_isDigit digit] at blank
    cases blank
  · revert blank
    decide

/-! ## Steps of the matcher -/

namespace Matcher

variable {α β : Type} {m : Matcher α} {l : Language α} {pos : Nat} {read rest : List Char} {a : α}

/-- Before `rest`, a matcher reads exactly `read` and gives `a`. -/
def Reads (m : Matcher α) (pos : Nat) (read rest : List Char) (a : α) : Prop :=
  ∀ record, ∃ record', m ⟨pos, read ++ rest⟩ record = (some (a, ⟨pos + read.length, rest⟩), record')

/-- A matcher fails on a text. -/
def Misses (m : Matcher α) (pos : Nat) (text : List Char) : Prop :=
  ∀ record, ∃ record', m ⟨pos, text⟩ record = (none, record')

/-- A matcher reads every text of a language before a rest that stops it. -/
def Complete (m : Matcher α) (l : Language α) (stop : List Char → Prop) : Prop :=
  ∀ {pos : Nat} {read rest : List Char} {a : α}, l pos read a → stop rest → m.Reads pos read rest a

theorem reads_pure (pos : Nat) (rest : List Char) (a : α) : Reads (pure a) pos [] rest a :=
  fun record => ⟨record, rfl⟩

theorem reads_position (pos : Nat) (rest : List Char) : Reads position pos [] rest pos :=
  fun record => ⟨record, rfl⟩

theorem reads_bind {next : α → Matcher β} {b : β} (left right : List Char)
    (cut : read = left ++ right) (first : m.Reads pos left (right ++ rest) a)
    (later : (next a).Reads (pos + left.length) right rest b) :
    (m >>= next).Reads pos read rest b := by
  subst cut
  intro record
  obtain ⟨between, firstOk⟩ := first record
  obtain ⟨record', laterOk⟩ := later between
  refine ⟨record', ?_⟩
  change m.andThen next ⟨pos, left ++ right ++ rest⟩ record = _
  unfold andThen
  rw [List.append_assoc, firstOk]
  dsimp only
  rw [laterOk, List.length_append, Nat.add_assoc]

theorem misses_bind {next : α → Matcher β} {text : List Char} (first : m.Misses pos text) :
    (m >>= next).Misses pos text := by
  intro record
  obtain ⟨record', missed⟩ := first record
  refine ⟨record', ?_⟩
  change m.andThen next ⟨pos, text⟩ record = _
  unfold andThen
  rw [missed]

theorem misses_bind_of_reads {next : α → Matcher β} {text : List Char} (read rest : List Char)
    (cut : text = read ++ rest) (first : m.Reads pos read rest a)
    (later : (next a).Misses (pos + read.length) rest) : (m >>= next).Misses pos text := by
  subst cut
  intro record
  obtain ⟨between, firstOk⟩ := first record
  obtain ⟨record', missed⟩ := later between
  refine ⟨record', ?_⟩
  change m.andThen next ⟨pos, read ++ rest⟩ record = _
  unfold andThen
  rw [firstOk]
  exact missed

theorem reads_literal (c : Char) (pos : Nat) (rest : List Char) :
    Reads (literal c) pos [c] rest () :=
  fun record => ⟨record, by simp [literal, Cursor.advance]⟩

theorem misses_literal {c : Char} {text : List Char} (other : text.head? ≠ some c) :
    Misses (literal c) pos text :=
  fun record => ⟨record.noteLiteral c pos, by simp [literal, other]⟩

theorem reads_run {keep : Char → Bool} (all : ∀ c ∈ read, keep c = true) (halts : Halts keep rest) :
    Reads (run keep) pos read rest read := by
  intro record
  have taken := takeWhile_append_of_halts all halts
  exact ⟨record, by simp [run, Cursor.advance, taken]⟩

theorem reads_lexeme {read? : List Char → Option (α × Nat)}
    (found : read? (read ++ rest) = some (a, read.length)) :
    Reads (lexeme read?) pos read rest a :=
  fun record => ⟨record, by simp [lexeme, Cursor.advance, found]⟩

theorem misses_lexeme {read? : List Char → Option (α × Nat)} {text : List Char}
    (none : read? text = none) : Misses (lexeme read?) pos text :=
  fun record => ⟨record, by simp [lexeme, none]⟩

theorem reads_part (p : Part) (inner : m.Reads pos read rest a) :
    (part p m).Reads pos read rest a := by
  intro record
  obtain ⟨record', ok⟩ := inner record
  exact ⟨record', by simp [part, ok]⟩

theorem misses_part (p : Part) {text : List Char} (inner : m.Misses pos text) :
    (part p m).Misses pos text := by
  intro record
  obtain ⟨record', missed⟩ := inner record
  exact ⟨record'.notePart p pos, by simp [part, missed]⟩

theorem complete_part (p : Part) {stop : List Char → Prop} (inner : m.Complete l stop) :
    (part p m).Complete l stop :=
  fun inside stops => reads_part p (inner inside stops)

theorem reads_optional_some (inner : m.Reads pos read rest a) (visible : Visible (read ++ rest)) :
    (optional m).Reads pos read rest (some a) := by
  intro record
  obtain ⟨record', ok⟩ := inner record
  obtain ⟨c, more, text, -⟩ := visible
  have some : ¬ (read ++ rest).isEmpty = true := by simp [text]
  exact ⟨record', by simp only [optional, if_neg some, ok]⟩

theorem reads_optional_none (missed : m.Misses pos rest) :
    (optional m).Reads pos [] rest none := by
  intro record
  obtain ⟨record', none⟩ := missed record
  by_cases empty : rest.isEmpty = true
  · exact ⟨record, by simp [optional, empty]⟩
  · exact ⟨record', by simp [optional, empty, none]⟩

/-- Texts that are read one by one are read all together, up to a rest on which the matcher fails.
No text may be empty, since the matcher stops where it does not move. -/
theorem reads_atMost {found : List α} (texts : Language.Many l pos read found)
    (first : ∀ {pos left right a more}, l pos left a → Language.Many l (pos + left.length) right more →
      left ≠ [] ∧ m.Reads pos left (right ++ rest) a)
    (missed : ∀ pos, m.Misses pos rest) {n : Nat} (enough : read.length ≤ n) :
    (atMost n m).Reads pos read rest found := by
  induction texts generalizing n with
  | nil pos =>
    cases n with
    | zero => exact reads_pure pos rest []
    | succ n =>
      intro record
      obtain ⟨record', none⟩ := missed pos record
      by_cases empty : rest.isEmpty = true
      · exact ⟨record, by simp [atMost, empty]⟩
      · exact ⟨record', by simp [atMost, empty, none]⟩
  | @cons pos left right a more inside later ih =>
    obtain ⟨nonempty, reads⟩ := first inside later
    have positive : 0 < left.length := List.length_pos_iff.mpr nonempty
    rw [List.length_append] at enough
    cases n with
    | zero => omega
    | succ n =>
      intro record
      obtain ⟨between, firstOk⟩ := reads record
      obtain ⟨record', laterOk⟩ := ih (n := n) (by omega) between
      have some : ¬ (left ++ (right ++ rest)).isEmpty = true := by simp [nonempty]
      have moved : ¬ pos + left.length = pos := by omega
      refine ⟨record', ?_⟩
      rw [List.append_assoc]
      simp only [atMost, if_neg some, firstOk, if_neg moved, andThen, laterOk, give,
        List.length_append, Nat.add_assoc]

theorem reads_many {found : List α} (texts : Language.Many l pos read found)
    (first : ∀ {pos left right a more}, l pos left a → Language.Many l (pos + left.length) right more →
      left ≠ [] ∧ m.Reads pos left (right ++ rest) a)
    (missed : ∀ pos, m.Misses pos rest) : (many m).Reads pos read rest found :=
  fun record => reads_atMost texts first missed (by simp) record

end Matcher

/-! ## Parts of a written tree -/

namespace Written

variable {pos : Nat} {text : List Char}

theorem blanks_iff {u : Unit} : blanks pos text u ↔ Blank text := by
  constructor
  · rintro ⟨left, right, found, rfl, ⟨-, blank⟩, rfl, -⟩
    rwa [List.append_nil]
  · intro blank
    exact ⟨text, [], text, (List.append_nil text).symm, ⟨rfl, blank⟩, rfl, rfl⟩

theorem separator_iff {c : Char} {u : Unit} :
    separator c pos text u ↔
      ∃ before after, text = before ++ c :: after ∧ Blank before ∧ Blank after := by
  constructor
  · rintro ⟨before, _, _, rfl, first, _, after, _, rfl, rfl, last⟩
    exact ⟨before, after, rfl, blanks_iff.mp first, blanks_iff.mp last⟩
  · rintro ⟨before, after, rfl, first, last⟩
    exact ⟨before, c :: after, (), rfl, blanks_iff.mpr first, [c], after, (), rfl, rfl,
      blanks_iff.mpr last⟩

theorem int_iff {n : Int} :
    int pos text n ↔ ∃ mark ds s, text = mark ++ ds ∧ sign pos mark s ∧ ds ≠ [] ∧
      (∀ c ∈ ds, isDigit c = true) ∧ n = s * digitsValue ds := by
  constructor
  · rintro ⟨mark, right, s, rfl, signed, ds, last, value, rfl, ⟨some, all, rfl⟩, rfl, rfl⟩
    exact ⟨mark, ds, s, by rw [List.append_nil], signed, some, all, rfl⟩
  · rintro ⟨mark, ds, s, rfl, signed, some, all, rfl⟩
    exact ⟨mark, ds, s, rfl, signed, ds, [], digitsValue ds, (List.append_nil ds).symm,
      ⟨some, all, rfl⟩, rfl, rfl⟩

theorem visible_of_int {n : Int} (number : int pos text n) : Visible text := by
  obtain ⟨mark, ds, s, rfl, signed, some, all, -⟩ := int_iff.mp number
  rcases signed with ⟨rfl, -⟩ | ⟨rfl, -⟩ | ⟨rfl, -⟩
  · obtain ⟨d, more, rfl⟩ := List.exists_cons_of_ne_nil some
    exact ⟨d, more, rfl, isBlank_of_isDigit (all d List.mem_cons_self)⟩
  · exact ⟨'+', ds, rfl, by decide⟩
  · exact ⟨'-', ds, rfl, by decide⟩

theorem visible_of_name {found : List Char} (named : name pos text found) : Visible text := by
  obtain ⟨-, c, rest, rfl, start, -⟩ := named
  exact ⟨c, rest, rfl, isBlank_of_isNameStart start⟩

theorem visible_of_tag {found : String} (tagged : tag pos text found) : Visible text := by
  obtain ⟨kind, right, value, rfl, named, -⟩ := tagged
  exact (visible_of_name named).append right

theorem path_iff {found : List Int} :
    path pos text found ↔ ∃ before middle after inner, text = '[' :: before ++ middle ++ after ++ [']'] ∧
      Blank before ∧ Language.optional hops (pos + 1 + before.length) middle inner ∧ Blank after ∧
      found = inner.getD [] := by
  constructor
  · rintro ⟨_, _, _, rfl, rfl, before, _, _, rfl, first, middle, _, inner, rfl, inside, after, _, _,
      rfl, last, _, _, _, rfl, rfl, rfl, rfl⟩
    exact ⟨before, middle, after, inner, by simp, blanks_iff.mp first, inside, blanks_iff.mp last,
      rfl⟩
  · rintro ⟨before, middle, after, inner, rfl, first, inside, last, rfl⟩
    exact ⟨['['], before ++ (middle ++ (after ++ [']'])), (), by simp, rfl, before, _, (), rfl,
      blanks_iff.mpr first, middle, _, inner, rfl, inside, after, _, (), rfl, blanks_iff.mpr last,
      [']'], [], (), rfl, rfl, rfl, rfl⟩

theorem visible_of_entry {e : WrittenEntry} (listed : entry pos text e) : Visible text := by
  obtain ⟨_, _, start, rfl, ⟨rfl, -⟩, left, right, found, rfl, placed, -⟩ := listed
  obtain ⟨before, middle, after, inner, rfl, -⟩ := path_iff.mp placed
  exact ⟨'[', before ++ middle ++ after ++ [']'] ++ right, by simp, by decide⟩

theorem visible_of_hops {found : List Int} (numbers : hops pos text found) : Visible text := by
  obtain ⟨first, right, n, rfl, number, -⟩ := numbers
  exact (visible_of_int number).append right

theorem visible_of_entries {found : List WrittenEntry} (listed : entries pos text found) :
    Visible text := by
  obtain ⟨first, right, e, rfl, entry, -⟩ := listed
  exact (visible_of_entry entry).append right

end Written

open Matcher

variable {α : Type} {pos : Nat} {text rest : List Char}

theorem complete_blanks : Complete blanks Written.blanks (Halts isBlank) := by
  intro pos read rest u inside halts
  exact reads_bind read [] (List.append_nil read).symm
    (reads_run (Written.blanks_iff.mp inside) halts) (reads_pure _ rest u)

theorem reads_blanks {before : List Char} (blank : Blank before) (halts : Halts isBlank rest)
    (pos : Nat) : Reads blanks pos before rest () :=
  complete_blanks (Written.blanks_iff.mpr blank) halts

theorem blank_nil : Blank [] := by
  intro c member
  cases member

theorem reads_separator {c : Char} (visible : isBlank c = false) {before after : List Char}
    (blank : Blank before) (blank' : Blank after) (halts : Halts isBlank rest) (pos : Nat) :
    Reads (separator c) pos (before ++ c :: after) rest () := by
  refine reads_bind before (c :: after) rfl (reads_blanks blank (halts_cons visible _) pos) ?_
  exact reads_bind [c] after rfl (reads_literal c _ _) (reads_blanks blank' halts _)

theorem misses_separator {c d : Char} {before after : List Char} (blank : Blank before)
    (visible : isBlank d = false) (other : d ≠ c) (pos : Nat) :
    Misses (separator c) pos (before ++ d :: after) := by
  refine misses_bind_of_reads _ _ rfl (reads_blanks blank (halts_cons visible _) pos) ?_
  refine misses_bind (misses_literal ?_)
  intro head
  cases head
  exact other rfl

/-- Behind an item of a list stands the comma before the next one, or what ends the list. -/
theorem stop_of_many {l : Language α} {stop : List Char → Prop} {found : List α}
    (comma : ∀ before rest, Blank before → stop (before ++ ',' :: rest)) (last : stop rest)
    (items : Language.Many (do Written.separator ','; l) pos text found) : stop (text ++ rest) := by
  cases items with
  | nil => exact last
  | cons first later =>
    obtain ⟨_, item, u, rfl, separated, -⟩ := first
    obtain ⟨before, after, rfl, blank, -⟩ := Written.separator_iff.mp separated
    rw [List.append_assoc, List.append_assoc, List.append_assoc]
    exact comma before _ blank

/-- Items with commas between them are read as far as there are commas. -/
theorem complete_separated {item : Matcher α} {l : Language α} {stop : List Char → Prop}
    (complete : Complete item l stop)
    (visible : ∀ {pos text a}, l pos text a → Visible text)
    (comma : ∀ before rest, Blank before → stop (before ++ ',' :: rest)) :
    Complete
      (do
        let first ← item
        let more ← Matcher.many do
          separator ','
          item
        return first :: more)
      (do
        let first ← l
        let more ← Language.many do
          Written.separator ','
          l
        return first :: more)
      fun rest => stop rest ∧ Ends rest := by
  rintro pos read rest found ⟨left, _, a, rfl, first, right, _, more, rfl, items, rfl, rfl⟩
    ⟨last, before, c, after, rfl, blank, shown, other⟩
  have items : Language.Many (do Written.separator ','; l) (pos + left.length) right more := items
  rw [List.append_nil]
  refine reads_bind left right rfl (complete first (stop_of_many comma last items)) ?_
  refine reads_bind right [] (List.append_nil right).symm ?_ (reads_pure _ _ _)
  refine reads_many items ?_ fun pos => misses_bind (misses_separator blank shown other pos)
  rintro pos _ right b others ⟨gap, listed, u, rfl, separated, inside⟩ later
  obtain ⟨gap, gap', rfl, blankGap, blankGap'⟩ := Written.separator_iff.mp separated
  refine ⟨by simp, reads_bind (gap ++ ',' :: gap') listed rfl (reads_separator (by decide) blankGap
    blankGap' ((visible inside).append _).halts pos) ?_⟩
  exact complete inside (stop_of_many comma last later)

theorem readDigits_append {ds : List Char} (nonempty : ds ≠ []) (all : ∀ c ∈ ds, isDigit c = true)
    (halts : Halts isDigit rest) : readDigits (ds ++ rest) = some (digitsValue ds, ds.length) := by
  have taken := takeWhile_append_of_halts all halts
  simp [readDigits, taken, nonempty]

theorem readInt_of_ne {cs : List Char} (minus : cs.head? ≠ some '-') (plus : cs.head? ≠ some '+') :
    readInt cs = (readDigits cs).map fun (n, length) => (n, length) := by
  unfold readInt
  split
  · exact absurd rfl minus
  · exact absurd rfl plus
  · rfl

theorem complete_int : Complete int Written.int (Halts isDigit) := by
  refine complete_part _ ?_
  intro pos read rest n inside halts
  refine reads_lexeme ?_
  obtain ⟨mark, ds, s, rfl, signed, nonempty, all, rfl⟩ := Written.int_iff.mp inside
  have digits := readDigits_append nonempty all halts
  rcases signed with ⟨rfl, rfl⟩ | ⟨rfl, rfl⟩ | ⟨rfl, rfl⟩
  · have notDigit : ∀ c, isDigit c = false → ([] ++ ds ++ rest).head? ≠ some c := by
      intro c no head
      obtain ⟨d, more, rfl⟩ := List.exists_cons_of_ne_nil nonempty
      cases head
      rw [all c List.mem_cons_self] at no
      cases no
    rw [readInt_of_ne (notDigit '-' (by decide)) (notDigit '+' (by decide))]
    simp [digits]
  · simp [readInt, digits]
  · simp [readInt, digits]

theorem misses_int {c : Char} (no : isDigit c = false) (minus : c ≠ '-') (plus : c ≠ '+') (pos : Nat)
    (after : List Char) : Misses int pos (c :: after) := by
  refine misses_part _ (misses_lexeme ?_)
  rw [readInt_of_ne (by simpa using minus) (by simpa using plus)]
  simp [readDigits, no]

theorem complete_hops : Complete hops Written.hops fun rest => Halts isDigit rest ∧ Ends rest :=
  complete_part _ (complete_separated complete_int Written.visible_of_int fun _ rest blank =>
    halts_blank_append isDigit_of_isBlank blank (by decide) rest)

theorem complete_path : Complete path Written.path fun _ => True := by
  intro pos read rest found inside _
  refine reads_part _ ?_
  obtain ⟨before, middle, after, inner, rfl, blank, numbers, blank', rfl⟩ := Written.path_iff.mp inside
  cases inner with
  | none =>
    -- Without hops the first run of blanks takes all of them.
    cases numbers
    refine reads_bind ['['] (before ++ after ++ [']']) (by simp) (reads_literal _ _ _) ?_
    refine reads_bind (before ++ after) [']'] rfl
      (reads_blanks (blank.append blank') (halts_cons (by decide) _) _) ?_
    refine reads_bind [] [']'] rfl (reads_optional_none (misses_part _ (misses_bind
      (misses_int (by decide) (by decide) (by decide) _ _)))) ?_
    refine reads_bind [] [']'] rfl (reads_blanks blank_nil (halts_cons (by decide) _) _) ?_
    exact reads_bind [']'] [] rfl (reads_literal _ _ _) (reads_pure _ _ _)
  | some found =>
    have shown := Written.visible_of_hops numbers
    refine reads_bind ['['] (before ++ (middle ++ (after ++ [']']))) (by simp)
      (reads_literal _ _ _) ?_
    refine reads_bind before (middle ++ (after ++ [']'])) rfl
      (reads_blanks blank ((shown.append _).append _).halts _) ?_
    refine reads_bind middle (after ++ [']']) rfl (reads_optional_some (complete_hops numbers ?_)
      (shown.append _)) ?_
    · rw [List.append_assoc]
      exact ⟨halts_blank_append isDigit_of_isBlank blank' (by decide) rest,
        after, ']', rest, rfl, blank', by decide, by decide⟩
    · refine reads_bind after [']'] rfl (reads_blanks blank' (halts_cons (by decide) _) _) ?_
      exact reads_bind [']'] [] rfl (reads_literal _ _ _) (reads_pure _ _ _)

theorem complete_name : Complete name Written.name (Halts isNameChar) := by
  refine complete_part _ ?_
  rintro pos read rest found ⟨rfl, c, more, rfl, start, all⟩ halts
  have taken := takeWhile_append_of_halts all halts
  exact reads_lexeme (by simp [readName, start, taken])

theorem halts_isNameChar (halts : Halts goesOn rest) : Halts isNameChar rest := by
  intro c head
  have no := halts c head
  rw [goesOn, Bool.or_eq_false_iff] at no
  exact no.1

theorem complete_tag : Complete tag Written.tag (Halts goesOn) := by
  refine complete_part _ ?_
  rintro pos read rest found ⟨kind, _, first, rfl, named, sub, _, more, rfl, refined, rfl, rfl⟩ halts
  cases more with
  | none =>
    cases refined
    refine reads_bind kind [] (by simp) (complete_name named (halts_isNameChar halts)) ?_
    refine reads_bind [] [] rfl (reads_optional_none (misses_part _ (misses_bind
      (misses_literal ?_)))) (reads_pure _ _ _)
    intro head
    have no := halts '@' head
    revert no
    decide
  | some precise =>
    obtain ⟨_, right, u, rfl, rfl, text, _, value, rfl, named', rfl, rfl⟩ := refined
    refine reads_bind kind ('@' :: text) (by simp) (complete_name named (halts_cons (by decide) _)) ?_
    refine reads_bind ('@' :: text) [] (by simp) (reads_optional_some (reads_part _ ?_)
      ⟨'@', text ++ _, rfl, by decide⟩) (reads_pure _ _ _)
    refine reads_bind ['@'] text rfl (reads_literal _ _ _) ?_
    exact reads_bind text [] (by simp) (complete_name named' (halts_isNameChar halts))
      (reads_pure _ _ _)

theorem complete_entry : Complete entry Written.entry (Halts goesOn) := by
  refine complete_part _ ?_
  rintro pos read rest e ⟨_, _, start, rfl, ⟨rfl, rfl⟩, left, _, found, rfl, placed, gap, _, u, rfl,
    separated, _, _, tagStart, rfl, ⟨rfl, rfl⟩, right, _, text, rfl, tagged, rfl, rfl⟩ halts
  obtain ⟨before, after, rfl, blank, blank'⟩ := Written.separator_iff.mp separated
  have shown := Written.visible_of_tag tagged
  refine reads_bind [] (left ++ ((before ++ ':' :: after) ++ right)) (by simp)
    (reads_position _ _) ?_
  refine reads_bind left _ rfl (complete_path placed trivial) ?_
  refine reads_bind (before ++ ':' :: after) right rfl
    (reads_separator (by decide) blank blank' (shown.append _).halts _) ?_
  refine reads_bind [] right rfl (reads_position _ _) ?_
  exact reads_bind right [] (by simp) (complete_tag tagged halts) (reads_pure _ _ _)

theorem complete_entries :
    Complete entries Written.entries fun rest => Halts goesOn rest ∧ Ends rest :=
  complete_part _ (complete_separated complete_entry Written.visible_of_entry fun _ rest blank =>
    halts_blank_append goesOn_of_isBlank blank (by decide) rest)

theorem misses_entries (other : text.head? ≠ some '[') (pos : Nat) : Misses entries pos text := by
  have noPath : ∀ pos, Misses path pos text := by
    intro pos
    exact misses_part _ (misses_bind (misses_literal other))
  refine misses_part _ (misses_bind (misses_part _ ?_))
  exact misses_bind_of_reads [] text rfl (reads_position _ _) (misses_bind (noPath _))

/-- A tree is read before everything that does not start with a blank. -/
theorem complete_tree : Complete tree Written.tree (Halts isBlank) := by
  refine complete_part _ ?_
  rintro pos read rest found ⟨_, _, u, rfl, opened, middle, _, inner, rfl, listed, _, _, u', rfl,
    closed, rfl, rfl⟩ halts
  obtain ⟨first, before, rfl, blankFirst, blank⟩ := Written.separator_iff.mp opened
  obtain ⟨after, last, rfl, blank', blankLast⟩ := Written.separator_iff.mp closed
  cases inner with
  | none =>
    cases listed
    refine reads_bind (first ++ openBrace :: (before ++ after)) (closeBrace :: last) (by simp)
      (reads_separator (by decide) blankFirst (blank.append blank') (halts_cons (by decide) _) _) ?_
    have noEntry : (closeBrace :: last ++ rest).head? ≠ some '[' := by simp [closeBrace]
    refine reads_bind [] (closeBrace :: last) rfl (reads_optional_none (misses_entries noEntry _)) ?_
    exact reads_bind (closeBrace :: last) [] (by simp)
      (reads_separator (by decide) blank_nil blankLast halts _) (reads_pure _ _ _)
  | some es =>
    have shown := Written.visible_of_entries listed
    refine reads_bind (first ++ openBrace :: before) (middle ++ (after ++ closeBrace :: last))
      (by simp) (reads_separator (by decide) blankFirst blank ((shown.append _).append _).halts _) ?_
    refine reads_bind middle (after ++ closeBrace :: last) rfl
      (reads_optional_some (complete_entries listed ?_) (shown.append _)) ?_
    · rw [List.append_assoc]
      exact ⟨halts_blank_append goesOn_of_isBlank blank' (by decide) _,
        after, closeBrace, last ++ rest, rfl, blank', by decide, by decide⟩
    · exact reads_bind (after ++ closeBrace :: last) [] (by simp)
        (reads_separator (by decide) blank' blankLast halts _) (reads_pure _ _ _)

/-- Reading takes exactly the written trees. -/
theorem scan_eq_ok_iff {cs : List Char} {es : List WrittenEntry} :
    scan cs = .ok es ↔ Written.tree 0 cs es := by
  constructor
  · intro ok
    unfold scan at ok
    split at ok
    · next found cursor record result =>
      split at ok
      · next empty =>
        cases ok
        obtain ⟨read, cut, -, inside⟩ := sound_tree result
        rw [List.isEmpty_iff.mp empty, List.append_nil] at cut
        rwa [cut]
      · cases ok
    · cases ok
  · intro inside
    obtain ⟨record, result⟩ := complete_tree inside (halts_nil _) none
    rw [List.append_nil] at result
    simp [scan, result]

end ByteLayout.TreeText
