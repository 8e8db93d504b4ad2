import ByteLayout.Proofs.GradualFilling

/-! # The life of a cell

A cell is filled by calls that each have a policy of their own, until it is frozen. An open cell takes
every tree and every entry whose path is one, and tells whether that added anything; a frozen one
refuses both and stays what it is. Under the distinct policy a join may lie far above the one under
the unified policy, but what is covered when integers carry no addresses is covered under either
policy, so in the order of the unified policy every call leads upward. -/

namespace ByteLayout

namespace Cell

variable {policy : Policy} {c : Cell} {other : Tree} {hops : List Datum}

/-! ## Calls -/

/-- A call on a cell. -/
inductive Call where
  | mergeIn (policy : Policy) (other : Tree)
  | insert (policy : Policy) (hops : List Datum) (tag : Tag)
  | freeze

/-- The cell that a call leaves behind: the filled one, or the old one if the call was refused. -/
def leftBy (c : Cell) : Except Fault (Bool × Cell) → Cell
  | .ok (_, filled) => filled
  | .error _ => c

/-- The cell after a call. -/
def after (c : Cell) : Call → Cell
  | .mergeIn policy other => c.leftBy (c.mergeIn policy other)
  | .insert policy hops tag => c.leftBy (c.insert policy hops tag)
  | .freeze => c.freeze

/-- The cell after some calls. -/
def afterAll (c : Cell) (calls : List Call) : Cell := calls.foldl after c

/-! ## What one call does -/

/-- An open cell takes every entry whose path is one. -/
theorem exists_took_insert (unfrozen : c.frozen = false) (policy : Policy) (tag : Tag)
    (formed : ¬ Path.Malformed hops) :
    ∃ p changed filled, hops = Path.data p.hops ∧
      c.insert policy hops tag = .ok (changed, filled) ∧
      Took policy c (.ofEntries .distinct [(p, tag)]) changed filled := by
  obtain ⟨p, rfl⟩ := Path.not_malformed_iff.mp formed
  obtain ⟨changed, filled, done, took⟩ :=
    exists_took_mergeIn unfrozen policy (.ofEntries .distinct [(p, tag)])
  exact ⟨p, changed, filled, rfl, (insert_eq_mergeIn policy c p tag).trans done, took⟩

/-- An open cell refuses an entry whose path is none. -/
theorem insert_of_malformed (unfrozen : c.frozen = false) (policy : Policy) (tag : Tag)
    (malformed : Path.Malformed hops) :
    ∃ fault, c.insert policy hops tag = .error (.path fault) := by
  cases read : Path.ofData hops with
  | error fault => exact ⟨fault, by simp [insert, unfrozen, read]⟩
  | ok p =>
    have formed := Path.not_malformed_iff.mpr ⟨p, Path.ofData_eq_ok_iff.mp read⟩
    exact absurd malformed formed

theorem mergeIn_of_frozen (frozen : c.frozen = true) (policy : Policy) (other : Tree) :
    c.mergeIn policy other = .error .frozen := by
  simp [mergeIn, frozen]

theorem insert_of_frozen (frozen : c.frozen = true) (policy : Policy) (hops : List Datum)
    (tag : Tag) : c.insert policy hops tag = .error .frozen := by
  simp [insert, frozen]

/-- A call on an open cell freezes it, is refused without effect, or joins some tree into it. -/
theorem after_cases (unfrozen : c.frozen = false) (call : Call) :
    (call = .freeze ∧ c.after call = c.freeze) ∨
      (call ≠ .freeze ∧ (c.after call = c ∨
        ∃ policy other changed, Took policy c other changed (c.after call))) := by
  cases call with
  | freeze => exact Or.inl ⟨rfl, rfl⟩
  | mergeIn policy other =>
    obtain ⟨changed, filled, done, took⟩ := exists_took_mergeIn unfrozen policy other
    refine Or.inr ⟨nofun, Or.inr ⟨policy, other, changed, ?_⟩⟩
    rw [after, done]
    exact took
  | insert policy hops tag =>
    refine Or.inr ⟨nofun, ?_⟩
    by_cases malformed : Path.Malformed hops
    · obtain ⟨fault, refused⟩ := insert_of_malformed unfrozen policy tag malformed
      left
      rw [after, refused]
      rfl
    · obtain ⟨p, changed, filled, -, done, took⟩ := exists_took_insert unfrozen policy tag malformed
      refine Or.inr ⟨policy, .ofEntries .distinct [(p, tag)], changed, ?_⟩
      rw [after, done]
      exact took

/-- A frozen cell stays what it is. -/
theorem after_of_frozen (frozen : c.frozen = true) (call : Call) : c.after call = c := by
  cases call with
  | mergeIn policy other => rw [after, mergeIn_of_frozen frozen]; rfl
  | insert policy hops tag => rw [after, insert_of_frozen frozen]; rfl
  | freeze =>
    cases c
    cases frozen
    rfl

theorem frozen_after_iff (call : Call) :
    (c.after call).frozen = true ↔ c.frozen = true ∨ call = .freeze := by
  cases state : c.frozen with
  | true => simp [after_of_frozen state, state]
  | false =>
    rcases after_cases state call with ⟨rfl, frozen⟩ | ⟨other, same | ⟨_, _, _, took⟩⟩
    · simp [frozen, freeze]
    · simp [same, state, other]
    · simp [took.unfrozen, other]

/-- Joining leads upward in the order of the unified policy, whatever policy it follows. -/
theorem Took.grows {changed : Bool} {filled : Cell} (took : Took policy c other changed filled) :
    c.tree.Below .unified filled.tree := by
  have own : c.tree.Below policy filled.tree :=
    (Tree.below_merge_left policy _ _).trans (Tree.below_of_beq policy (Tree.beq_symm took.joined))
  cases policy with
  | distinct => exact own.of_distinct
  | unified => exact own

theorem after_grows (wf : c.tree.WellFormed) (call : Call) :
    (c.after call).tree.WellFormed ∧ c.tree.Below .unified (c.after call).tree := by
  cases state : c.frozen with
  | true =>
    rw [after_of_frozen state]
    exact ⟨wf, Tree.below_refl _ _⟩
  | false =>
    rcases after_cases state call with ⟨-, frozen⟩ | ⟨-, same | ⟨_, _, _, took⟩⟩
    · rw [frozen]
      exact ⟨wf, Tree.below_refl _ _⟩
    · rw [same]
      exact ⟨wf, Tree.below_refl _ _⟩
    · exact ⟨took.wellFormed, took.grows⟩

/-! ## What many calls do -/

theorem afterAll_of_frozen (frozen : c.frozen = true) (calls : List Call) :
    c.afterAll calls = c := by
  induction calls with
  | nil => rfl
  | cons call rest ih =>
    rw [afterAll, List.foldl_cons, after_of_frozen frozen]
    exact ih

theorem frozen_afterAll_iff (calls : List Call) :
    (c.afterAll calls).frozen = true ↔ c.frozen = true ∨ .freeze ∈ calls := by
  induction calls generalizing c with
  | nil => simp [afterAll]
  | cons call rest ih =>
    rw [afterAll, List.foldl_cons, ← afterAll, ih, frozen_after_iff, List.mem_cons, or_assoc,
      eq_comm (a := call)]

theorem afterAll_grows (wf : c.tree.WellFormed) (calls : List Call) :
    (c.afterAll calls).tree.WellFormed ∧ c.tree.Below .unified (c.afterAll calls).tree := by
  induction calls generalizing c with
  | nil => exact ⟨wf, Tree.below_refl _ _⟩
  | cons call rest ih =>
    obtain ⟨wfNext, first⟩ := after_grows wf call
    obtain ⟨wfLast, later⟩ := ih wfNext
    exact ⟨wfLast, first.trans later⟩

/-- At every point of the life of a cell whose tree is well-formed, it is frozen exactly if it was so at
first or a call has frozen it, and no further calls lead anywhere but upward in the order of the
unified policy. While it is open it takes every tree and every entry whose path is one; it tells of a
change exactly when its tree is another one afterwards, which is exactly when what was joined did not
lie below it under the policy of the call. A path that is none is refused, and nothing happens. Once
it is frozen it refuses all trees and entries, and its tree stays the same for ever. -/
theorem history_of_cell {c s : Cell} {calls : List Call} (wf : c.tree.WellFormed)
    (reached : c.afterAll calls = s) :
    (s.frozen = true ↔ c.frozen = true ∨ .freeze ∈ calls) ∧
    (∀ more, (Tree.lattice .unified).leq s.tree (s.afterAll more).tree = true) ∧
    (s.frozen = false →
      (∀ policy other, ∃ changed filled, s.mergeIn policy other = .ok (changed, filled) ∧
        s.after (.mergeIn policy other) = filled ∧ Took policy s other changed filled) ∧
      (∀ policy hops tag, ¬ Path.Malformed hops →
        ∃ p changed filled, hops = Path.data p.hops ∧
          s.insert policy hops tag = .ok (changed, filled) ∧
          s.after (.insert policy hops tag) = filled ∧
          Took policy s (.ofEntries .distinct [(p, tag)]) changed filled) ∧
      (∀ policy hops tag, Path.Malformed hops →
        (∃ fault, s.insert policy hops tag = .error (.path fault)) ∧
          s.after (.insert policy hops tag) = s)) ∧
    (s.frozen = true →
      (∀ policy other, s.mergeIn policy other = .error .frozen) ∧
      (∀ policy hops tag, s.insert policy hops tag = .error .frozen) ∧
      ∀ more, s.afterAll more = s) := by
  subst reached
  obtain ⟨wfNow, -⟩ := afterAll_grows wf calls
  refine ⟨frozen_afterAll_iff calls, ?_, ?_, ?_⟩
  · intro more
    obtain ⟨wfThen, grown⟩ := afterAll_grows wfNow more
    exact (Tree.leq_iff wfThen).mpr grown
  · intro unfrozen
    refine ⟨?_, ?_, ?_⟩
    · intro policy other
      obtain ⟨changed, filled, done, took⟩ := exists_took_mergeIn unfrozen policy other
      exact ⟨changed, filled, done, by rw [after, done]; rfl, took⟩
    · intro policy hops tag formed
      obtain ⟨p, changed, filled, same, done, took⟩ := exists_took_insert unfrozen policy tag formed
      exact ⟨p, changed, filled, same, done, by rw [after, done]; rfl, took⟩
    · intro policy hops tag malformed
      obtain ⟨fault, refused⟩ := insert_of_malformed unfrozen policy tag malformed
      exact ⟨⟨fault, refused⟩, by rw [after, refused]; rfl⟩
  · intro frozen
    exact ⟨mergeIn_of_frozen frozen, insert_of_frozen frozen, afterAll_of_frozen frozen⟩

/-- A number that turns into the address of a float, and an entry whose path is none. -/
def numberThenAddress : List Call := [
  .insert .unified [.int (-1)] .integer,
  .mergeIn .unified (.ofEntries .distinct [(⟨.any, [.byte 8]⟩, .float .double)]),
  .insert .distinct [.int (-1), .flag true] .pointer]

/-- Joining the number once more adds nothing under the unified policy, and a contradiction under the
distinct one. After the cell is frozen it keeps the address of the float. -/
theorem history_of_cell_numberThenAddress :
    Tree.empty.WellFormed ∧
    (afterAll { tree := .empty } numberThenAddress).tree.entries =
      [(.root, .pointer), (⟨.any, [.byte 8]⟩, .float .double)] ∧
    (∃ filled, mergeIn .unified (afterAll { tree := .empty } numberThenAddress) (.scalar .integer) =
      .ok (false, filled)) ∧
    (∃ filled, mergeIn .distinct (afterAll { tree := .empty } numberThenAddress) (.scalar .integer) =
      .ok (true, filled)) ∧
    (∃ fault, insert .distinct (afterAll { tree := .empty } numberThenAddress) [.int (-2)] .integer =
      .error (.path fault)) ∧
    ∀ more, afterAll (afterAll { tree := .empty } (numberThenAddress ++ [.freeze])) more =
      afterAll { tree := .empty } (numberThenAddress ++ [.freeze]) := by
  have wf : Tree.empty.WellFormed := Tree.wellFormed_empty
  obtain ⟨-, -, opened, -⟩ :=
    history_of_cell wf (rfl : afterAll { tree := .empty } numberThenAddress = _)
  obtain ⟨joins, -, refusals⟩ := opened (by decide)
  obtain ⟨frozen, -, -, closed⟩ :=
    history_of_cell wf (rfl : afterAll { tree := .empty } (numberThenAddress ++ [.freeze]) = _)
  have last : Call.freeze ∈ numberThenAddress ++ [.freeze] := List.mem_concat_self
  refine ⟨wf, by decide, ?_, ?_, ?_, (closed (frozen.mpr (Or.inr last))).2.2⟩
  · obtain ⟨changed, filled, done, -, took⟩ := joins .unified (.scalar .integer)
    cases changed with
    | false => exact ⟨filled, done⟩
    | true => exact absurd (took.needed.mp rfl) (by decide)
  · obtain ⟨changed, filled, done, -, took⟩ := joins .distinct (.scalar .integer)
    cases changed with
    | false => exact absurd (took.needed.mpr (by decide)) Bool.false_ne_true
    | true => exact ⟨filled, done⟩
  · refine (refusals .distinct [.int (-2)] .integer (Or.inr ⟨.int (-2), ?_, ?_⟩)).1
    · exact List.mem_singleton_self _
    · rintro n same
      cases same
      decide

end Cell

end ByteLayout
