import ByteLayout.Proofs.OrderIndependence
import Mathlib.Data.List.Dedup

/-! # Where integers and pointers are reconciled

Under the unified policy an integer may carry an address. Joins and bounds then make no contradiction
of integers and pointers, nor do copies, calls and arithmetic. Loads, stores and moves of pointers do
not know the policy: where they bring entries under the wildcard and entries under byte zero
together, an integer and a pointer in the same place still contradict each other, and so do an
integer and whatever comes to lie behind it. This is the only way in which an analysis of integers
and pointers comes to a contradiction. -/

namespace ByteLayout

/-- The tags that the unified policy reconciles. -/
def Tag.Reconcilable (tag : Tag) : Prop := tag = .integer ∨ tag = .pointer

instance : DecidablePred Tag.Reconcilable := fun _ => inferInstanceAs (Decidable (_ ∨ _))

theorem Tag.Reconcilable.join {a b : Tag} (first : a.Reconcilable) (second : b.Reconcilable) :
    (a.join .unified b).Reconcilable := by
  rcases first with rfl | rfl <;> rcases second with rfl | rfl <;> decide

namespace Tree

variable {policy : Policy} {a b t : Tree} {p q : Path} {tag : Tag} {size depth offset : Nat}
  {es : List (Path × Tag)} {m : OrderedMap Path Tag} {move : Path → Option Path}

/-- A tree of integers and pointers. -/
def Reconcilable (t : Tree) : Prop := ∀ p tag, t.get? p = some tag → tag.Reconcilable

theorem Reconcilable.of_beq (own : a.Reconcilable) (same : (a == b) = true) : b.Reconcilable := by
  intro p tag stored
  rw [← beq_iff.mp same p] at stored
  exact own p tag stored

theorem reconcilable_empty : empty.Reconcilable := by
  intro p tag stored
  cases stored

theorem reconcilable_scalar (own : tag.Reconcilable) : (scalar tag).Reconcilable := by
  have known : tag ≠ .bottom := by
    rcases own with rfl | rfl <;> decide
  intro p other stored
  rw [get?_scalar_eq_some_iff known] at stored
  exact stored.2 ▸ own

/-! ## Joins and bounds -/

theorem reconcilable_addTag (own : (mk m).Reconcilable) (added : tag.Reconcilable) (p : Path) :
    (mk (addTag .unified m p tag)).Reconcilable := by
  intro q other stored
  change (addTag .unified m p tag).get? q = some other at stored
  rw [get?_addTag] at stored
  split at stored
  · cases stored
    cases old : m.get? p with
    | none => exact added
    | some before => exact (own p before old).join added
  · exact own q other stored

theorem reconcilable_addAll (own : (mk m).Reconcilable) (added : ∀ e ∈ es, e.2.Reconcilable) :
    (mk (addAll .unified m es)).Reconcilable := by
  induction es generalizing m with
  | nil => exact own
  | cons e rest ih =>
    exact ih (reconcilable_addTag own (added e List.mem_cons_self) e.1)
      fun x member => added x (List.mem_cons_of_mem _ member)

theorem reconcilable_normalize (own : (mk m).Reconcilable) :
    (normalize .unified m).Reconcilable := by
  intro p tag stored
  rw [get?_normalize] at stored
  split at stored
  · cases stored
  · rw [get?_promote, Option.map_eq_some_iff] at stored
    obtain ⟨old, found, rfl⟩ := stored
    have before : old.Reconcilable := own p old (get?_known_eq_some_iff.mp found).1
    split
    · exact before.join (Or.inr rfl)
    · exact before

theorem Reconcilable.merge (first : a.Reconcilable) (second : b.Reconcilable) :
    (a.merge .unified b).Reconcilable :=
  reconcilable_normalize
    (reconcilable_addAll first fun e member => second e.1 e.2 (mem_entries_iff.mp member))

theorem reconcilable_foldl_merge {xs : List Tree} (start : t.Reconcilable)
    (all : ∀ x ∈ xs, x.Reconcilable) : (xs.foldl (merge .unified) t).Reconcilable := by
  induction xs generalizing t with
  | nil => exact start
  | cons x rest ih =>
    exact ih (start.merge (all x List.mem_cons_self))
      fun y member => all y (List.mem_cons_of_mem _ member)

theorem Reconcilable.bounded (own : t.Reconcilable) (depth offset : Nat) :
    (t.bounded depth offset).Reconcilable :=
  fun p tag stored => own p tag (get?_bounded_eq_some_iff.mp stored).1

/-! ## Entries that are moved -/

/-- Entries that can be stored as they are, once repetitions are left out. -/
structure Coherent (es : List (Path × Tag)) : Prop where
  agree : ∀ e ∈ es, ∀ e' ∈ es, e.1 = e'.1 → e.2 = e'.2
  known : ∀ e ∈ es, e.2 ≠ .bottom
  pointers : ∀ e ∈ es, ∀ e' ∈ es, e.1.isAncestorOf e'.1 = true → e.2 = .pointer

theorem Coherent.formed (coherent : Coherent es) : Formed es.dedup where
  distinct := by
    refine List.Nodup.map_on (fun e member e' member' same => ?_) (List.nodup_dedup es)
    rw [List.mem_dedup] at member member'
    exact Prod.ext same (coherent.agree e member e' member' same)
  known e member := coherent.known e (List.mem_dedup.mp member)
  pointers e member e' member' :=
    coherent.pointers e (List.mem_dedup.mp member) e' (List.mem_dedup.mp member')

theorem Coherent.get?_ofEntries_eq_some_iff (coherent : Coherent es) :
    (ofEntries policy es).get? p = some tag ↔ (p, tag) ∈ es := by
  have same : (ofEntries policy es == ofEntries policy es.dedup) = true := by
    refine beq_of_below_iff policy (wellFormed_normalize _ _) (wellFormed_normalize _ _)
      fun t wf => ?_
    rw [ofEntries_below_iff wf, ofEntries_below_iff wf]
    simp only [List.mem_dedup]
  rw [beq_iff.mp same, coherent.formed.get?_ofEntries_eq_some_iff, List.mem_dedup]

/-- An integer is moved to where a pointer is moved, or before another entry. -/
def Clashes (move : Path → Option Path) (t : Tree) : Prop :=
  ∃ p p' q q' tag, t.get? p = some .integer ∧ t.get? p' = some tag ∧ move p = some q ∧
    move p' = some q' ∧ ((q = q' ∧ tag = .pointer) ∨ q.isAncestorOf q' = true)

theorem coherent_movedEntries (wf : t.WellFormed) (own : t.Reconcilable)
    (apart : ¬ t.Clashes move) : Coherent (t.movedEntries move) := by
  constructor
  · rintro ⟨q, tag⟩ member ⟨q', tag'⟩ member' same
    obtain ⟨p, found, placed⟩ := mem_movedEntries_iff.mp member
    obtain ⟨p', found', placed'⟩ := mem_movedEntries_iff.mp member'
    rcases own p tag found with rfl | rfl <;> rcases own p' tag' found' with rfl | rfl
    · rfl
    · exact absurd ⟨p, p', q, q', _, found, found', placed, placed', Or.inl ⟨same, rfl⟩⟩ apart
    · exact absurd ⟨p', p, q', q, _, found', found, placed', placed, Or.inl ⟨same.symm, rfl⟩⟩ apart
    · rfl
  · rintro ⟨q, tag⟩ member rfl
    obtain ⟨p, found, -⟩ := mem_movedEntries_iff.mp member
    exact wf.known p found
  · rintro ⟨q, tag⟩ member ⟨q', tag'⟩ member' above
    obtain ⟨p, found, placed⟩ := mem_movedEntries_iff.mp member
    obtain ⟨p', found', placed'⟩ := mem_movedEntries_iff.mp member'
    rcases own p tag found with rfl | rfl
    · exact absurd ⟨p, p', q, q', tag', found, found', placed, placed', Or.inr above⟩ apart
    · rfl

theorem Reconcilable.not_hides (own : t.Reconcilable) (p : Path) : ¬ t.Hides p := by
  rintro ⟨q, -, hides⟩
  rcases own q .anything hides with impossible | impossible <;> cases impossible

/-- Whatever is moved, integers and pointers stay what they are exactly if they do not clash. -/
theorem reconcilable_moved_iff (wf : t.WellFormed) (own : t.Reconcilable) :
    (t.moved move).Reconcilable ↔ ¬ t.Clashes move := by
  constructor
  · rintro still ⟨p, p', q, q', tag, found, found', placed, placed', clash⟩
    have atQ := (covers_moved .distinct found placed).resolve_left (still.not_hides q)
    have atQ' := (covers_moved .distinct found' placed').resolve_left (still.not_hides q')
    have integer : (t.moved move).get? q = some .integer := by
      have known : (t.moved move).tag q ≠ .bottom := atQ.ne_bottom nofun
      have stored := get?_of_tag_ne_bottom known
      rcases still q _ stored with same | same
      · rwa [same] at stored
      · rw [same] at atQ
        exact absurd atQ (by decide)
    rcases clash with ⟨rfl, rfl⟩ | above
    · rw [tag_of_get? integer] at atQ'
      exact absurd atQ' (by decide)
    · have known : (t.moved move).tag q' ≠ .bottom := atQ'.ne_bottom (wf.ne_bottom found')
      have moved : (t.moved move).WellFormed := wellFormed_normalize _ _
      have onWay := moved.pointers q q' .integer above integer
        (by rw [get?_of_tag_ne_bottom known]; rfl)
      cases onWay
  · intro apart q tag stored
    have member := (coherent_movedEntries wf own apart).get?_ofEntries_eq_some_iff.mp stored
    obtain ⟨p, found, -⟩ := mem_movedEntries_iff.mp member
    exact own p tag found

theorem Faithful.not_clashes (faithful : Faithful move t) (wf : t.WellFormed) :
    ¬ t.Clashes move := by
  rintro ⟨p, p', q, q', tag, found, found', placed, placed', clash⟩
  obtain ⟨injective, order⟩ :=
    faithful p p' q q' (by simp [found]) (by simp [found']) placed placed'
  rcases clash with ⟨same, rfl⟩ | above
  · rw [injective same, found'] at found
    cases found
  · have pointer := wf.pointers p p' .integer (order above) found (by simp [found'])
    cases pointer

/-! ## What instructions make of trees -/

/-- Entries of some memory clash when `size` bytes of it are loaded as one object. -/
def ClashesWhenLoaded (size : Nat) (t : Tree) : Prop :=
  t.LoadsOne size ∧ t.Clashes (Path.mapFirst? (loadedHop? size))

/-- A load of several objects leaves all entries where they are. -/
theorem read_beq_filter (wf : t.WellFormed) (several : ¬ t.LoadsOne size) :
    (t.read size == t.filter fun p _ => startsWithin size p) = true := by
  obtain ⟨-, inside⟩ := Classical.not_not.mp several
  obtain ⟨k, later, within, starts⟩ := startsInside_iff.mp inside
  obtain ⟨p, tag, found, first⟩ := startsAt_iff.mp starts
  have kept : (p, tag) ∈ (t.map.filter fun p _ => startsWithin size p).entries := by
    refine List.mem_filter.mpr ⟨mem_entries_iff.mpr found, ?_⟩
    simpa [startsWithin, first] using within
  have notWhole : isWholeObject (t.map.filter fun p _ => startsWithin size p) ≠ true := by
    intro whole
    simp only [isWholeObject, Bool.and_eq_true, List.all_eq_true, Bool.or_eq_true,
      decide_eq_true_eq] at whole
    rcases whole.2 _ kept with any | zero
    · rw [first] at any
      cases any
    · rw [first] at zero
      cases zero
      exact Nat.lt_irrefl 0 later
  unfold read
  dsimp only
  rw [if_neg notWhole]
  exact normalize_beq_of_wellFormed .distinct (wellFormed_filter _ wf)

theorem reconcilable_read_iff (wf : t.WellFormed) (own : t.Reconcilable) :
    (t.read size).Reconcilable ↔ ¬ t.ClashesWhenLoaded size := by
  by_cases one : t.LoadsOne size
  · have same := read_beq_moved one
    rw [ClashesWhenLoaded, and_iff_right one, ← reconcilable_moved_iff wf own]
    exact ⟨fun read => read.of_beq same, fun moved => moved.of_beq (beq_symm same)⟩
  · refine ⟨fun _ clash => one clash.1, fun _ => ?_⟩
    refine Reconcilable.of_beq (fun p tag stored => ?_) (beq_symm (read_beq_filter wf one))
    exact own p tag (get?_filter_eq_some_iff.mp stored).1

theorem Reconcilable.pointerTo (own : t.Reconcilable) (wf : t.WellFormed) :
    (pointerTo t).Reconcilable := by
  intro p tag stored
  rcases (get?_pointerTo_eq_some_iff wf).mp stored with ⟨-, rfl⟩ | ⟨q, found, -⟩
  · exact Or.inr rfl
  · exact own q tag found

theorem reconcilable_stored (wf : t.WellFormed) (own : t.Reconcilable)
    (apart : ¬ t.Clashes (Path.mapFirst? memoryHop?)) : t.stored.Reconcilable := by
  refine Reconcilable.pointerTo ?_ (wellFormed_normalize _ _)
  rw [toMemory_eq]
  exact (reconcilable_moved_iff wf own).mpr apart

theorem reconcilable_loaded (wf : t.WellFormed) (own : t.Reconcilable)
    (apart : ¬ t.Clashes (Path.inPointee? 0)) (apart' : ¬ (t.pointee 0).ClashesWhenLoaded size) :
    (t.loaded size).Reconcilable :=
  (reconcilable_read_iff (wellFormed_normalize _ _)
    ((reconcilable_moved_iff wf own).mpr apart)).mpr apart'

theorem reconcilable_movedForward {n : Nat} (wf : t.WellFormed) (own : t.Reconcilable)
    (apart : ¬ t.Clashes (Path.inPointee? n)) : (t.movedForward n).Reconcilable :=
  ((reconcilable_moved_iff wf own).mpr apart).pointerTo (wellFormed_normalize _ _)

theorem reconcilable_movedBackward (n : Nat) (wf : t.WellFormed) (own : t.Reconcilable)
    (apart : ¬ t.Clashes (Path.inPointee? 0)) : (t.movedBackward n).Reconcilable := by
  have wfMemory : (t.pointee 0).WellFormed := wellFormed_normalize _ _
  have memory : (t.pointee 0).Reconcilable := (reconcilable_moved_iff wf own).mpr apart
  refine Reconcilable.pointerTo ?_ (wellFormed_normalize _ _)
  rw [advanced_eq]
  exact (reconcilable_moved_iff wfMemory memory).mpr
    ((faithful_advancedHop? n _).not_clashes wfMemory)

end Tree

/-- Arithmetic of an instruction is on integers and pointers. -/
def Instruction.Reconcilable : Instruction → Prop
  | .arith _ _ tag => tag.Reconcilable
  | _ => True

instance : DecidablePred Instruction.Reconcilable
  | .arith _ _ tag => inferInstanceAs (Decidable tag.Reconcilable)
  | .copy .. | .load .. | .store .. | .offset .. | .call .. | .ret .. | .other .. => .isTrue trivial

/-- An integer clashes with something else where an instruction moves the entries of a tree: of the
pointer, of what lies behind it, or of the value that is loaded or stored. -/
def Instruction.ClashesIn (trees : ValueId → Tree) : Instruction → Prop
  | .load result pointer size | .store _ result pointer size =>
    (trees pointer).Clashes (Path.inPointee? 0) ∨
      ((trees pointer).pointee 0).ClashesWhenLoaded size ∨
      (trees result).Clashes (Path.mapFirst? Tree.memoryHop?)
  | .offset result pointer bytes =>
    (trees pointer).Clashes (Path.inPointee? bytes) ∨ (trees result).Clashes (Path.inPointee? 0)
  | _ => False

variable {trees : ValueId → Tree}

theorem Rule.reconcilable_total {r : Rule} {source : ValueId} {f : Tree → Tree} {t : Tree}
    (reads : r.sources = [source]) (same : r.apply = .total f)
    (made : (f (trees source)).Reconcilable) (ok : r.apply (r.sources.map trees) = .ok t) :
    t.Reconcilable := by
  rw [reads, same] at ok
  cases ok
  exact made

/-- The rules of an instruction make no contradiction where nothing clashes. -/
theorem Rule.MadeBy.reconcilable {r : Rule} {i : Instruction} {t : Tree} (made : r.MadeBy i)
    (wf : ∀ v, (trees v).WellFormed) (own : ∀ v, (trees v).Reconcilable) (known : i.Reconcilable)
    (apart : ¬ i.ClashesIn trees) (ok : r.apply (r.sources.map trees) = .ok t) :
    t.Reconcilable := by
  cases made with
  | same target source => exact reconcilable_total (f := id) rfl rfl (own source) ok
  | fixed target tag =>
    cases ok
    exact Tree.reconcilable_scalar known
  | load result pointer size | storeBack _ result pointer size =>
    simp only [Instruction.ClashesIn, not_or] at apart
    exact reconcilable_total rfl rfl
      (Tree.reconcilable_loaded (wf pointer) (own pointer) apart.1 apart.2.1) ok
  | loadBack result pointer size | store _ result pointer size =>
    simp only [Instruction.ClashesIn, not_or] at apart
    exact reconcilable_total rfl rfl
      (Tree.reconcilable_stored (wf result) (own result) apart.2.2) ok
  | offset result pointer bytes =>
    simp only [Instruction.ClashesIn, not_or] at apart
    exact reconcilable_total rfl rfl
      (Tree.reconcilable_movedForward (wf pointer) (own pointer) apart.1) ok
  | offsetBack result pointer bytes =>
    simp only [Instruction.ClashesIn, not_or] at apart
    exact reconcilable_total rfl rfl
      (Tree.reconcilable_movedBackward bytes (wf result) (own result) apart.2) ok

/-! ## Runs -/

namespace RuleSystem

variable {s : RuleSystem} {seed : ValueId → Tree} {st st' : RunState} {v : ValueId}
  {rest : List ValueId}

/-- A step makes no contradiction if no rule does. -/
theorem step_reconcilable (closed : s.Closed) (consistent : s.Consistent seed st)
    (unified : s.options.policy = .unified) (seeds : ∀ v, (seed v).Reconcilable)
    (before : ∀ w, (st.tree w).Reconcilable)
    (rules : ∀ r ∈ s.rules, ∀ t, r.apply (r.sources.map st.tree) = .ok t → t.Reconcilable)
    (head : st.queue = v :: rest) (ok : s.step seed st = .ok st') (w : ValueId) :
    (st'.tree w).Reconcilable := by
  obtain ⟨-, -, new, solved, kept | grown⟩ := step_spec closed consistent.scheduled head ok
  · rw [kept.trees]
    exact before w
  · rw [grown.trees]
    split
    · obtain ⟨more, read, rfl⟩ := equation_eq_ok_iff.mp solved
      refine Tree.Reconcilable.bounded ?_ _ _
      rw [unified]
      refine Tree.reconcilable_foldl_merge Tree.reconcilable_empty fun x member => ?_
      rcases List.mem_cons.mp member with rfl | later
      · exact before v
      · rcases List.mem_cons.mp later with rfl | contributed
        · exact seeds v
        · obtain ⟨r, among, made⟩ := (mem_of_mapM_eq_ok read).2 x contributed
          exact rules r (mem_rulesFor_iff.mp among).1 x made
    · exact before w

/-- The first contradiction of a run is made by a rule, out of trees without any. -/
theorem Reached.reconcilable_or_rule (closed : s.Closed) (unified : s.options.policy = .unified)
    (seeds : ∀ v, (seed v).Reconcilable) (reached : s.Reached seed st) :
    (∀ v, (st.tree v).Reconcilable) ∨
      ∃ earlier, s.Reached seed earlier ∧ (∀ v, (earlier.tree v).Reconcilable) ∧
        ∃ r ∈ s.rules, ∃ t, r.apply (r.sources.map earlier.tree) = .ok t ∧ ¬ t.Reconcilable := by
  induction reached with
  | start =>
    left
    intro v
    by_cases member : v ∈ s.order
    · rw [tree_initial member]
      exact (seeds v).bounded _ _
    · rw [(s.consistent_initial seed).tree_of_not_mem member]
      exact Tree.reconcilable_empty
  | @next st st' v rest earlier head _ ok ih =>
    rcases ih with before | found
    · by_cases rules : ∀ r ∈ s.rules, ∀ t, r.apply (r.sources.map st.tree) = .ok t → t.Reconcilable
      · left
        exact step_reconcilable closed (earlier.consistent closed) unified seeds before rules head ok
      · right
        simp only [not_forall] at rules
        obtain ⟨r, member, t, made, contradictory⟩ := rules
        exact ⟨st, earlier, before, r, member, t, made, contradictory⟩
    · exact Or.inr found

end RuleSystem

namespace Program

variable {p : Program}

/-- Under the unified policy, the analysis of a valid program of integers and pointers ends with
trees of integers and pointers, unless at some time, with no contradiction in any tree yet, an
integer clashes with something else where a load, a store or an offset moves entries. -/
theorem analyze_reconciles_unless_clash (valid : p.Valid) (options : Options)
    (unified : options.policy = .unified)
    (seeds : ∀ v, (p.seedOf v).WellFormed ∧ (p.seedOf v).Reconcilable)
    (ariths : ∀ f ∈ p.functionList, ∀ i ∈ f.body, i.Reconcilable) :
    ∃ s o, RuleSystem.ofProgram p options = .ok s ∧ p.analyze options = .ok o ∧
      ((∀ v slot, o.slots.get? v = some slot → slot.tree.Reconcilable) ∨
        ∃ st, s.Reached p.seedOf st ∧ (∀ v, (st.tree v).Reconcilable) ∧
          ∃ f ∈ p.functionList, ∃ i ∈ f.body, i.ClashesIn st.tree) := by
  obtain ⟨s, represents, built⟩ := RuleSystem.exists_ofProgram valid
  have closed := (represents.withOptions options).closed
  obtain ⟨o, ok⟩ := RuleSystem.exists_run (represents.withOptions options).total p
  refine ⟨{ s with options }, o, built options, (analyze_eq_ok_iff (built options)).mpr ok, ?_⟩
  obtain ⟨last, reached, slots⟩ := RuleSystem.exists_reached_of_run closed ok
  rcases reached.reconcilable_or_rule closed unified fun v => (seeds v).2 with all | found
  · left
    intro v slot found
    have tree := all v
    rw [slots] at found
    rwa [RunState.tree, found] at tree
  · right
    obtain ⟨st, earlier, own, r, rule, t, made, contradictory⟩ := found
    obtain ⟨f, inProgram, i, inBody, rules, ofBody, among⟩ :=
      (RuleSystem.mem_rules_of_ofProgram (built options)).mp rule
    refine ⟨st, earlier, own, f, inProgram, i, inBody, Classical.byContradiction fun apart => ?_⟩
    exact contradictory ((madeBy_of_mem_rulesOf ofBody among).reconcilable
      (earlier.wellFormed closed fun v => (seeds v).1) own (ariths f inProgram i inBody) apart made)

theorem reconcilable_seedOf (all : ∀ e ∈ p.seeds.entries, ∀ x ∈ e.2.entries, x.2.Reconcilable)
    (v : ValueId) : (p.seedOf v).Reconcilable := by
  unfold seedOf
  cases found : p.seeds.get? v with
  | none => exact Tree.reconcilable_empty
  | some t =>
    intro q tag stored
    exact all _ (OrderedMap.mem_entries_iff.mpr found) _ (Tree.mem_entries_iff.mpr stored)

/-- A function is called with an integer and with a pointer to an integer, and about what comes of
this it is known that there is more behind that integer. -/
def callSites : Program :=
  ((ofSeeds [("y", [(.root, .pointer), (⟨.any, [.byte 0]⟩, .integer)]),
      ("z", [(⟨.any, [.byte 0, .byte 4]⟩, .integer)])]).setFunction
    { name := "same", arguments := ["a"], returns := true, body := [.ret none "a"] }).withBody
      [.arith "x" [] .integer, .call ⟨some "r", "same", ["x"]⟩, .call ⟨none, "same", ["y"]⟩,
        .copy "z" ["r"]]

/-- The calls make a pointer of the integer, and the copy makes one of the integer behind it. -/
theorem analyze_reconciles_unless_clash_callSites :
    callSites.Valid ∧ (∀ v, (callSites.seedOf v).WellFormed ∧ (callSites.seedOf v).Reconcilable) ∧
      (∀ f ∈ callSites.functionList, ∀ i ∈ f.body, i.Reconcilable) ∧
      ∃ o, callSites.analyze { policy := .unified } = .ok o ∧
        (∀ v slot, o.slots.get? v = some slot → slot.tree.Reconcilable) ∧
        (o.tree "x").tag .root = .pointer ∧ (o.tree "z").tag ⟨.any, [.byte 0]⟩ = .pointer := by
  have valid : callSites.Valid := ⟨rfl, by decide⟩
  have seeds (v : ValueId) :
      (callSites.seedOf v).WellFormed ∧ (callSites.seedOf v).Reconcilable :=
    ⟨wellFormed_seedOf_ofSeeds _ v, reconcilable_seedOf (by decide) v⟩
  have ariths : ∀ f ∈ callSites.functionList, ∀ i ∈ f.body, i.Reconcilable := by decide
  have resting : ∀ f ∈ callSites.functionList, ∀ i ∈ f.body,
      (match i with | .load .. | .store .. | .offset .. => false | _ => true) = true := by decide
  have found : (callSites.analyze { policy := .unified }).toOption.map
      (fun o => ((o.tree "x").tag .root, (o.tree "z").tag ⟨.any, [.byte 0]⟩)) =
        some (.pointer, .pointer) := by
    decide +kernel
  obtain ⟨o, ended, same⟩ := Option.map_eq_some_iff.mp found
  rw [Prod.mk.injEq] at same
  obtain ⟨s, o', -, ok, all | ⟨st, -, -, f, inProgram, i, inBody, clash⟩⟩ :=
    analyze_reconciles_unless_clash valid { policy := .unified } rfl seeds ariths
  · cases (eq_ok_of_toOption ended).symm.trans ok
    exact ⟨valid, seeds, ariths, o, ok, all, same⟩
  · have rests := resting f inProgram i inBody
    cases i with
    | load | store | offset => cases rests
    | copy | arith | call | ret | other => cases clash

/-! ### Where they are not reconciled -/

/-- A valid program of integers and pointers whose analysis ends with a contradiction. -/
structure Contradicts (options : Options) (p : Program) : Prop where
  valid : p.Valid
  seeds : ∀ v, (p.seedOf v).WellFormed ∧ (p.seedOf v).Reconcilable
  ariths : ∀ f ∈ p.functionList, ∀ i ∈ f.body, i.Reconcilable
  outcome : ∃ o, p.analyze options = .ok o ∧
    ∃ v slot q, o.slots.get? v = some slot ∧ slot.tree.get? q = some .anything

theorem contradicts_of_tag {options : Options} {seeds : List (ValueId × List (Path × Tag))}
    {body : List Instruction} (valid : ((ofSeeds seeds).withBody body).Valid)
    (own : ∀ e ∈ (ofSeeds seeds).seeds.entries, ∀ x ∈ e.2.entries, x.2.Reconcilable)
    (ariths : ∀ f ∈ ((ofSeeds seeds).withBody body).functionList, ∀ i ∈ f.body, i.Reconcilable)
    (v : ValueId) (path : Path)
    (found : (((ofSeeds seeds).withBody body).analyze options).toOption.map
      (fun o => (o.tree v).tag path) = some .anything) :
    Contradicts options ((ofSeeds seeds).withBody body) := by
  refine ⟨valid, fun w => ⟨wellFormed_seedOf_ofSeeds seeds w, reconcilable_seedOf own w⟩, ariths, ?_⟩
  obtain ⟨o, ended, top⟩ := Option.map_eq_some_iff.mp found
  refine ⟨o, eq_ok_of_toOption ended, v, ?_⟩
  have stored := Tree.tag_eq_anything_iff.mp top
  cases slot : o.slots.get? v with
  | none => simp [Outcome.tree, slot, Tree.get?, Tree.empty] at stored
  | some found => exact ⟨found, path, rfl, by simpa [Outcome.tree, slot] using stored⟩

/-- The unified policy is not kept to where entries are moved. An integer with a pointer at its byte
zero is stored as a contradiction; so is what lies at the same byte behind a pointer as a whole and
behind its byte zero when the pointer is moved, and what is loaded where an integer lies at every
byte and a pointer at byte zero. -/
theorem analyze_contradicts_where_moved :
    Contradicts { policy := .unified }
        ((ofSeeds [("v", [(.root, .integer), (⟨.byte 0, []⟩, .pointer)])]).withBody
          [.store none "v" "p" 8]) ∧
      Contradicts { policy := .unified }
        ((ofSeeds [("p", [(.root, .pointer), (⟨.any, [.byte 4]⟩, .integer),
            (⟨.byte 0, []⟩, .pointer), (⟨.byte 0, [.byte 4]⟩, .pointer)])]).withBody
          [.offset "q" "p" 0]) ∧
      Contradicts { policy := .unified }
        ((ofSeeds [("p", [(.root, .pointer), (⟨.any, [.any]⟩, .integer),
            (⟨.any, [.byte 0]⟩, .pointer)])]).withBody
          [.load "r" "p" 8]) := by
  refine ⟨?_, ?_, ?_⟩
  · exact contradicts_of_tag ⟨rfl, by decide⟩ (by decide) (by decide) "p" ⟨.any, [.byte 0]⟩
      (by decide +kernel)
  · exact contradicts_of_tag ⟨rfl, by decide⟩ (by decide) (by decide) "q" ⟨.any, [.byte 4]⟩
      (by decide +kernel)
  · exact contradicts_of_tag ⟨rfl, by decide⟩ (by decide) (by decide) "r" .root (by decide +kernel)

end Program

end ByteLayout
