import ByteLayout.TreeText.Grammar

/-! # The language of written trees

The grammar of written trees, read as an ordinary context-free grammar: one text after another may be
cut anywhere, an optional part may be left out wherever it is not needed, and a repeated part may
stand any number of times. A matcher decides all of this at once, from left to right and without
going back. Whatever it reads belongs to the language. -/

namespace ByteLayout.TreeText

/-- Texts that may stand at a position, each with what it means. -/
def Language (α : Type) : Type := Nat → List Char → α → Prop

namespace Language

variable {α β : Type}

/-- The empty text. -/
def give (a : α) : Language α := fun _ text b => text = [] ∧ b = a

/-- A text, followed by one of those that its meaning asks for. -/
def andThen (l : Language α) (next : α → Language β) : Language β := fun pos text b =>
  ∃ left right a, text = left ++ right ∧ l pos left a ∧ next a (pos + left.length) right b

instance : Monad Language where
  pure := give
  bind := andThen

/-- The empty text, which means the position where it stands. -/
def position : Language Nat := fun pos text n => text = [] ∧ n = pos

/-- One given character. -/
def literal (c : Char) : Language Unit := fun _ text _ => text = [c]

/-- Any number of characters of a class. -/
def run (keep : Char → Bool) : Language (List Char) := fun _ text found =>
  found = text ∧ ∀ c ∈ text, keep c = true

/-- A text of a language, or nothing. -/
def optional (l : Language α) : Language (Option α) := fun pos text found =>
  match found with
  | some a => l pos text a
  | none => text = []

/-- Any number of texts of a language, one after the other. -/
inductive Many (l : Language α) : Nat → List Char → List α → Prop
  | nil (pos : Nat) : Many l pos [] []
  | cons {pos : Nat} {left right : List Char} {a : α} {more : List α} (first : l pos left a)
      (rest : Many l (pos + left.length) right more) : Many l pos (left ++ right) (a :: more)

/-- Any number of texts of a language, one after the other. -/
def many (l : Language α) : Language (List α) := Many l

end Language

/-! ## The grammar -/

namespace Written

/-- Blanks, if there are any. -/
def blanks : Language Unit := do
  let _ ← Language.run isBlank

/-- A character with blanks around it. -/
def separator (c : Char) : Language Unit := do
  blanks
  Language.literal c
  blanks

/-- An optional sign, which means the factor that it stands for. -/
def sign : Language Int := fun _ text s =>
  (text = [] ∧ s = 1) ∨ (text = ['+'] ∧ s = 1) ∨ (text = ['-'] ∧ s = -1)

/-- At least one decimal digit. -/
def digits : Language Nat := fun _ text n =>
  text ≠ [] ∧ (∀ c ∈ text, isDigit c = true) ∧ n = digitsValue text

/-- An integer: an optional sign and decimal digits. -/
def int : Language Int := do
  let s ← sign
  let n ← digits
  return s * n

/-- The hops of a path: integers with commas between them. -/
def hops : Language (List Int) := do
  let first ← int
  let more ← Language.many do
    separator ','
    int
  return first :: more

/-- A path: hops, or none, between brackets. -/
def path : Language (List Int) := do
  Language.literal '['
  blanks
  let found ← Language.optional hops
  blanks
  Language.literal ']'
  return found.getD []

/-- A name: letters, digits and underscores, not starting with a digit. -/
def name : Language (List Char) := fun _ text found =>
  found = text ∧ ∃ c rest, text = c :: rest ∧ isNameStart c = true ∧ ∀ d ∈ rest, isNameChar d = true

/-- The precision of a tag. -/
def precision : Language (List Char) := do
  Language.literal '@'
  let sub ← name
  return '@' :: sub

/-- A tag, which means the text that it is written with. -/
def tag : Language String := do
  let kind ← name
  let sub ← Language.optional precision
  return String.ofList (kind ++ sub.getD [])

/-- An entry: a path, a colon and a tag. -/
def entry : Language WrittenEntry := do
  let start ← Language.position
  let found ← path
  separator ':'
  let tagStart ← Language.position
  let text ← tag
  return ⟨start, found, tagStart, text⟩

/-- Entries with commas between them. -/
def entries : Language (List WrittenEntry) := do
  let first ← entry
  let more ← Language.many do
    separator ','
    entry
  return first :: more

/-- A tree: entries, or none, between braces. -/
def tree : Language (List WrittenEntry) := do
  separator openBrace
  let found ← Language.optional entries
  separator closeBrace
  return found.getD []

end Written

/-! ## What a matcher reads -/

namespace Matcher

variable {α β : Type} {m : Matcher α} {l : Language α}

/-- Whatever a matcher reads is a text of the language, and the matcher gives its meaning. -/
def Sound (m : Matcher α) (l : Language α) : Prop :=
  ∀ {pos : Nat} {text : List Char} {record record' : Record} {a : α} {cursor : Cursor},
    m ⟨pos, text⟩ record = (some (a, cursor), record') →
      ∃ read, text = read ++ cursor.rest ∧ cursor.pos = pos + read.length ∧ l pos read a

theorem bind_eq_some {next : α → Matcher β} {cursor last : Cursor} {record record' : Record} {b : β}
    (ok : (m >>= next) cursor record = (some (b, last), record')) :
    ∃ a middle between, m cursor record = (some (a, middle), between) ∧
      next a middle between = (some (b, last), record') := by
  change m.andThen next cursor record = (some (b, last), record') at ok
  unfold andThen at ok
  rcases first : m cursor record with ⟨_ | ⟨a, middle⟩, between⟩
  · rw [first] at ok
    cases ok
  · rw [first] at ok
    exact ⟨a, middle, between, rfl, ok⟩

theorem sound_pure (a : α) : Sound (pure a) (pure a) := by
  intro pos text record record' b cursor ok
  cases ok
  exact ⟨[], rfl, rfl, rfl, rfl⟩

theorem sound_bind {next : α → Matcher β} {following : α → Language β} (first : Sound m l)
    (later : ∀ a, Sound (next a) (following a)) : Sound (m >>= next) (l >>= following) := by
  intro pos text record record' b cursor ok
  obtain ⟨a, middle, between, firstOk, laterOk⟩ := bind_eq_some ok
  obtain ⟨left, rfl, moved, inFirst⟩ := first firstOk
  obtain ⟨right, rest, end_, inLater⟩ := later a laterOk
  rw [moved] at end_ inLater
  refine ⟨left ++ right, ?_, ?_, left, right, a, rfl, inFirst, inLater⟩
  · rw [rest, List.append_assoc]
  · rw [end_, List.length_append, Nat.add_assoc]

theorem sound_position : Sound position Language.position := by
  intro pos text record record' n cursor ok
  cases ok
  exact ⟨[], rfl, rfl, rfl, rfl⟩

theorem sound_literal (c : Char) : Sound (literal c) (Language.literal c) := by
  intro pos text record record' u cursor ok
  unfold literal at ok
  split at ok
  · next head =>
    cases ok
    cases text with
    | nil => cases head
    | cons d rest =>
      cases head
      exact ⟨[c], rfl, rfl, rfl⟩
  · cases ok

theorem sound_run (keep : Char → Bool) : Sound (run keep) (Language.run keep) := by
  intro pos text record record' found cursor ok
  cases ok
  refine ⟨text.takeWhile keep, ?_, rfl, rfl, ?_⟩
  · have cut : text.takeWhile keep ++ text.dropWhile keep = text := List.takeWhile_append_dropWhile
    have rest := congrArg (List.drop (text.takeWhile keep).length) cut
    rw [List.drop_left] at rest
    change text = text.takeWhile keep ++ text.drop (text.takeWhile keep).length
    rw [← rest, cut]
  · intro c member
    exact List.all_eq_true.mp List.all_takeWhile c member

theorem sound_lexeme {read? : List Char → Option (α × Nat)}
    (reads : ∀ pos text a n, read? text = some (a, n) →
      ∃ read rest, text = read ++ rest ∧ n = read.length ∧ l pos read a) :
    Sound (lexeme read?) l := by
  intro pos text record record' a cursor ok
  unfold lexeme at ok
  split at ok
  · next b n found =>
    cases ok
    obtain ⟨read, rest, rfl, rfl, inside⟩ := reads pos text a n found
    refine ⟨read, ?_, rfl, inside⟩
    change read ++ rest = read ++ (read ++ rest).drop read.length
    rw [List.drop_left]
  · cases ok

theorem sound_part (p : Part) (inner : Sound m l) : Sound (part p m) l := by
  intro pos text record record' a cursor ok
  unfold part at ok
  rcases result : m ⟨pos, text⟩ record with ⟨_ | found, between⟩
  · rw [result] at ok
    cases ok
  · rw [result] at ok
    cases ok
    exact inner result

theorem sound_optional (inner : Sound m l) : Sound (optional m) (Language.optional l) := by
  intro pos text record record' found cursor ok
  unfold optional at ok
  split at ok
  · cases ok
    exact ⟨[], rfl, rfl, rfl⟩
  · rcases result : m ⟨pos, text⟩ record with ⟨_ | ⟨a, after⟩, between⟩
    · rw [result] at ok
      cases ok
      exact ⟨[], rfl, rfl, rfl⟩
    · rw [result] at ok
      cases ok
      exact inner result

theorem sound_atMost (n : Nat) (inner : Sound m l) : Sound (atMost n m) (Language.many l) := by
  induction n with
  | zero =>
    intro pos text record record' found cursor ok
    cases ok
    exact ⟨[], rfl, rfl, .nil pos⟩
  | succ n ih =>
    intro pos text record record' found cursor ok
    unfold atMost at ok
    split at ok
    · cases ok
      exact ⟨[], rfl, rfl, .nil pos⟩
    · rcases result : m ⟨pos, text⟩ record with ⟨_ | ⟨a, after⟩, between⟩
      · rw [result] at ok
        cases ok
        exact ⟨[], rfl, rfl, .nil pos⟩
      · rw [result] at ok
        dsimp only at ok
        obtain ⟨left, rest, moved, first⟩ := inner result
        split at ok
        · cases ok
          refine ⟨left, rest, moved, ?_⟩
          have once := Language.Many.cons first (.nil _)
          rwa [List.append_nil] at once
        · obtain ⟨more, middle, between', moreOk, same⟩ := bind_eq_some (m := atMost n m) ok
          cases same
          obtain ⟨right, rest', moved', later⟩ := ih moreOk
          rw [moved] at moved' later
          refine ⟨left ++ right, ?_, ?_, .cons first later⟩
          · rw [rest, rest', List.append_assoc]
          · rw [moved', List.length_append, Nat.add_assoc]

theorem sound_many (inner : Sound m l) : Sound (many m) (Language.many l) := by
  intro pos text record record' found cursor ok
  exact sound_atMost _ inner ok

end Matcher

/-! ## Whatever is read is written -/

theorem sound_blanks : Matcher.Sound blanks Written.blanks :=
  Matcher.sound_bind (Matcher.sound_run isBlank) fun _ => Matcher.sound_pure _

theorem sound_separator (c : Char) : Matcher.Sound (separator c) (Written.separator c) :=
  Matcher.sound_bind sound_blanks fun _ =>
    Matcher.sound_bind (Matcher.sound_literal c) fun _ => sound_blanks

theorem readDigits_eq_some {text : List Char} {n length : Nat}
    (ok : readDigits text = some (n, length)) :
    ∃ read rest, text = read ++ rest ∧ length = read.length ∧ ∀ pos, Written.digits pos read n := by
  unfold readDigits at ok
  dsimp only at ok
  split at ok
  · cases ok
  · next some =>
    cases ok
    refine ⟨text.takeWhile isDigit, text.dropWhile isDigit,
      List.takeWhile_append_dropWhile.symm, rfl, fun _ => ⟨?_, ?_, rfl⟩⟩
    · rwa [List.isEmpty_iff] at some
    · intro c member
      exact List.all_eq_true.mp List.all_takeWhile c member

theorem Written.int_of_digits {s : Int} {mark read : List Char} {n pos : Nat}
    (signed : Written.sign pos mark s) (number : ∀ pos, Written.digits pos read n) :
    Written.int pos (mark ++ read) (s * n) :=
  ⟨mark, read, s, rfl, signed, read, [], n, (List.append_nil read).symm, number _, rfl, rfl⟩

theorem sound_int : Matcher.Sound int Written.int := by
  refine Matcher.sound_part _ (Matcher.sound_lexeme fun pos text n length ok => ?_)
  unfold readInt at ok
  split at ok
  all_goals
    rw [Option.map_eq_some_iff] at ok
    obtain ⟨⟨value, count⟩, found, same⟩ := ok
    cases same
    obtain ⟨read, rest, rfl, rfl, number⟩ := readDigits_eq_some found
  · have signed : Written.sign pos ['-'] (-1) := Or.inr (Or.inr ⟨rfl, rfl⟩)
    refine ⟨'-' :: read, rest, rfl, rfl, ?_⟩
    have whole := Written.int_of_digits signed number
    rwa [Int.neg_one_mul] at whole
  · have signed : Written.sign pos ['+'] 1 := Or.inr (Or.inl ⟨rfl, rfl⟩)
    refine ⟨'+' :: read, rest, rfl, rfl, ?_⟩
    have whole := Written.int_of_digits signed number
    rwa [Int.one_mul] at whole
  · have signed : Written.sign pos [] 1 := Or.inl ⟨rfl, rfl⟩
    refine ⟨read, rest, rfl, rfl, ?_⟩
    have whole := Written.int_of_digits signed number
    rwa [Int.one_mul] at whole

theorem sound_hops : Matcher.Sound hops Written.hops :=
  Matcher.sound_part _ (Matcher.sound_bind sound_int fun _ =>
    Matcher.sound_bind
      (Matcher.sound_many (Matcher.sound_bind (sound_separator ',') fun _ => sound_int)) fun _ =>
        Matcher.sound_pure _)

theorem sound_path : Matcher.Sound path Written.path :=
  Matcher.sound_part _ (Matcher.sound_bind (Matcher.sound_literal '[') fun _ =>
    Matcher.sound_bind sound_blanks fun _ =>
      Matcher.sound_bind (Matcher.sound_optional sound_hops) fun _ =>
        Matcher.sound_bind sound_blanks fun _ =>
          Matcher.sound_bind (Matcher.sound_literal ']') fun _ => Matcher.sound_pure _)

theorem sound_name : Matcher.Sound name Written.name := by
  refine Matcher.sound_part _ (Matcher.sound_lexeme fun pos text found n ok => ?_)
  cases text with
  | nil => cases ok
  | cons c cs =>
    simp only [readName] at ok
    split at ok
    · next start =>
      cases ok
      refine ⟨c :: cs.takeWhile isNameChar, cs.dropWhile isNameChar, ?_, rfl, rfl,
        c, cs.takeWhile isNameChar, rfl, start, ?_⟩
      · rw [List.cons_append, List.takeWhile_append_dropWhile]
      · intro d member
        exact List.all_eq_true.mp List.all_takeWhile d member
    · cases ok

theorem sound_precision : Matcher.Sound precision Written.precision :=
  Matcher.sound_part _ (Matcher.sound_bind (Matcher.sound_literal '@') fun _ =>
    Matcher.sound_bind sound_name fun _ => Matcher.sound_pure _)

theorem sound_tag : Matcher.Sound tag Written.tag :=
  Matcher.sound_part _ (Matcher.sound_bind sound_name fun _ =>
    Matcher.sound_bind (Matcher.sound_optional sound_precision) fun _ => Matcher.sound_pure _)

theorem sound_entry : Matcher.Sound entry Written.entry :=
  Matcher.sound_part _ (Matcher.sound_bind Matcher.sound_position fun _ =>
    Matcher.sound_bind sound_path fun _ => Matcher.sound_bind (sound_separator ':') fun _ =>
      Matcher.sound_bind Matcher.sound_position fun _ =>
        Matcher.sound_bind sound_tag fun _ => Matcher.sound_pure _)

theorem sound_entries : Matcher.Sound entries Written.entries :=
  Matcher.sound_part _ (Matcher.sound_bind sound_entry fun _ =>
    Matcher.sound_bind
      (Matcher.sound_many (Matcher.sound_bind (sound_separator ',') fun _ => sound_entry)) fun _ =>
        Matcher.sound_pure _)

/-- Whatever is read as a tree is written as one. -/
theorem sound_tree : Matcher.Sound tree Written.tree :=
  Matcher.sound_part _ (Matcher.sound_bind (sound_separator openBrace) fun _ =>
    Matcher.sound_bind (Matcher.sound_optional sound_entries) fun _ =>
      Matcher.sound_bind (sound_separator closeBrace) fun _ => Matcher.sound_pure _)

end ByteLayout.TreeText
