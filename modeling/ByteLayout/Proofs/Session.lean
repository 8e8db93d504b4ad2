import ByteLayout.Descriptor.Builder
import ByteLayout.Proofs.RoundTrip
import ByteLayout.Proofs.RunInvariant
import ByteLayout.Tree.Cell

/-! # Sessions

Whoever uses the library holds trees and makes more of them: out of nothing, out of trees that are
already there, by filling a tree further or by analysing a program that is seeded with some of them.
A call that fails changes nothing. However long this goes on, every tree that is held is well-formed,
because every single way of making or filling a tree keeps that. -/

namespace ByteLayout

namespace Session

/-- A call that makes one new tree. Trees that are already there are named by their index. -/
inductive Making where
  | ofEntries (policy : Policy) (entries : List (List Datum × Tag))
  | scalar (tag : Tag)
  | decode (text : String)
  | build (builder : Builder) (current : Registry) (root : Path) (d : Descriptor)
  | copy (source : Nat)
  | merge (policy : Policy) (left right : Nat)
  | mergeAll (policy : Policy) (sources : List Nat)
  | meet (left right : Nat)
  | pointee (source : Nat) (base : Int)
  | under (source : Nat) (hop : Int)
  | window (source : Nat) (offset size target : Int)
  | load (source : Nat) (size : Int)
  | toMemory (source : Nat)
  | purge (source : Nat)
  | atMost (source : Nat) (n : Int)
  | truncate (source : Nat) (depth : Int)

/-- The tree with a given index. -/
def treeAt (cells : List Cell) (n : Nat) : Option Tree := cells[n]?.map Cell.tree

/-- The tree that a call makes, if it succeeds. -/
def Making.tree? (cells : List Cell) : Making → Option Tree
  | .ofEntries policy entries => do
    let es ← entries.mapM fun e => do
      let p ← (Path.ofData e.1).toOption
      return (p, e.2)
    return .ofEntries policy es
  | .scalar tag => some (.scalar tag)
  | .decode text => (TreeText.read text).toOption
  | .build builder current root d => (builder.build current root d).toOption.map fun r => r.1.tree
  | .copy source => treeAt cells source
  | .merge policy left right => return (← treeAt cells left).merge policy (← treeAt cells right)
  | .mergeAll policy sources => return .mergeAll policy (← sources.mapM (treeAt cells))
  | .meet left right => return (← treeAt cells left).meet (← treeAt cells right)
  | .pointee source base => do ((← treeAt cells source).pointeeFrom base).toOption
  | .under source hop => do ((← treeAt cells source).underOffset hop).toOption
  | .window source offset size target => do
    ((← treeAt cells source).window offset (.ofInt size) target).toOption
  | .load source size => do ((← treeAt cells source).readBytes size).toOption
  | .toMemory source => return (← treeAt cells source).toMemory
  | .purge source => return (← treeAt cells source).purge
  | .atMost source n => return (← treeAt cells source).atMost n
  | .truncate source depth => return (← treeAt cells source).truncate depth

/-- A call. -/
inductive Operation where
  | make (making : Making)
  | mergeIn (policy : Policy) (target other : Nat)
  | insert (policy : Policy) (target : Nat) (hops : List Datum) (tag : Tag)
  | freeze (target : Nat)
  /-- The analysis of a program with the given seeds. Rules may be added to its system, and values
  may be seeded further, before it runs. -/
  | propagate (functions : OrderedMap String Function) (seeds later : List (ValueId × Nat))
      (options : Options) (added : List Rule)

/-- The program in which more is known about some values. -/
def plant (cells : List Cell) (p : Program) (seeds : List (ValueId × Nat)) : Option Program :=
  seeds.foldlM (fun p seed => (treeAt cells seed.2).map (p.seed seed.1)) p

/-- What there is after a call that succeeds. -/
def Operation.perform (cells : List Cell) : Operation → Option (List Cell)
  | .make making => (making.tree? cells).map fun t => cells ++ [⟨t, false⟩]
  | .mergeIn policy target other => do
    let c ← cells[target]?
    let t ← treeAt cells other
    let filled ← (c.mergeIn policy t).toOption
    return cells.set target filled.2
  | .insert policy target hops tag => do
    let c ← cells[target]?
    let filled ← (c.insert policy hops tag).toOption
    return cells.set target filled.2
  | .freeze target => cells[target]?.map fun c => cells.set target c.freeze
  | .propagate functions seeds later options added => do
    let p ← plant cells { functions } seeds
    let s ← (RuleSystem.ofProgram p options).toOption
    let p' ← plant cells p later
    let o ← ((added.foldl RuleSystem.addRule s).run p').toOption
    return cells ++ o.slots.entries.map fun e => ⟨e.2.tree, true⟩

/-- What there is after a call. -/
def step (cells : List Cell) (op : Operation) : List Cell := (op.perform cells).getD cells

/-- What there is after some calls. -/
def run (ops : List Operation) : List Cell := ops.foldl step []

/-- All trees are well-formed. -/
def Sound (cells : List Cell) : Prop := ∀ c ∈ cells, c.tree.WellFormed

end Session

/-! ## Operations on trees -/

namespace Tree

variable {t u : Tree}

theorem wellFormed_read (size : Nat) (t : Tree) : (t.read size).WellFormed := by
  unfold read
  dsimp only
  split
  · exact wellFormed_ofEntries _ _
  · exact wellFormed_normalize _ _

theorem wellFormed_of_underOffset {n : Int} (wf : t.WellFormed) (ok : t.underOffset n = .ok u) :
    u.WellFormed := by
  unfold underOffset at ok
  split at ok
  · cases ok
    exact wellFormed_under _ wf
  · cases ok
    exact wellFormed_empty
  · cases ok

theorem wellFormed_of_window {offset target : Int} {extent : Extent}
    (ok : t.window offset extent target = .ok u) : u.WellFormed := by
  unfold window at ok
  simp only [bind, Except.bind] at ok
  split at ok
  · cases ok
  · cases ok
    exact wellFormed_ofEntries _ _

theorem wellFormed_of_pointeeFrom {base : Int} (ok : t.pointeeFrom base = .ok u) : u.WellFormed := by
  unfold pointeeFrom at ok
  split at ok
  · cases ok
  · cases ok
    exact wellFormed_ofEntries _ _

theorem wellFormed_of_readBytes {size : Int} (ok : t.readBytes size = .ok u) : u.WellFormed := by
  unfold readBytes at ok
  split at ok
  · cases ok
  · cases ok
    exact wellFormed_read _ _

end Tree

theorem Builder.wellFormed_of_build {b b' : Builder} {current : Registry} {root : Path}
    {d : Descriptor} {l : Descriptor.Layout} (ok : b.build current root d = .ok (l, b')) :
    l.tree.WellFormed := by
  unfold build Descriptor.layout at ok
  split at ok
  · cases ok
  · next layout laid =>
    cases ok
    split at laid
    · cases laid
    · cases laid
      exact Tree.wellFormed_ofEntries _ _

namespace Cell

variable {policy : Policy} {c : Cell} {filled : Bool × Cell}

theorem wellFormed_of_mergeIn {other : Tree} (wf : c.tree.WellFormed)
    (ok : c.mergeIn policy other = .ok filled) : filled.2.tree.WellFormed := by
  unfold mergeIn at ok
  dsimp only at ok
  split at ok
  · cases ok
  · split at ok
    · cases ok
      exact wf
    · cases ok
      exact Tree.wellFormed_merge _ _ _

theorem wellFormed_of_insert {hops : List Datum} {tag : Tag} (wf : c.tree.WellFormed)
    (ok : c.insert policy hops tag = .ok filled) : filled.2.tree.WellFormed := by
  unfold insert at ok
  split at ok
  · cases ok
  · split at ok
    · cases ok
    · exact wellFormed_of_mergeIn wf ok

end Cell

/-! ## Steps and runs -/

namespace Session

variable {cells : List Cell} {t : Tree}

theorem Sound.treeAt (sound : Sound cells) {n : Nat} (found : treeAt cells n = some t) :
    t.WellFormed := by
  obtain ⟨c, stored, rfl⟩ := Option.map_eq_some_iff.mp found
  exact sound c (List.mem_of_getElem? stored)

/-- A call that makes a tree out of well-formed ones makes a well-formed one. -/
theorem Sound.tree? (sound : Sound cells) {making : Making} (made : making.tree? cells = some t) :
    t.WellFormed := by
  cases making with
  | ofEntries policy entries =>
    simp only [Making.tree?, Option.bind_eq_bind, Option.bind_eq_some_iff] at made
    obtain ⟨es, -, same⟩ := made
    cases same
    exact Tree.wellFormed_ofEntries _ _
  | scalar tag =>
    cases made
    exact Tree.wellFormed_ofEntries _ _
  | decode text => exact TreeText.wellFormed_of_read (eq_ok_of_toOption made)
  | build builder current root d =>
    obtain ⟨⟨l, b'⟩, built, rfl⟩ := Option.map_eq_some_iff.mp made
    exact Builder.wellFormed_of_build (eq_ok_of_toOption built)
  | copy source => exact sound.treeAt made
  | merge policy left right =>
    simp only [Making.tree?, Option.bind_eq_bind, Option.bind_eq_some_iff] at made
    obtain ⟨a, -, b, -, same⟩ := made
    cases same
    exact Tree.wellFormed_merge _ _ _
  | mergeAll policy sources =>
    simp only [Making.tree?, Option.bind_eq_bind, Option.bind_eq_some_iff] at made
    obtain ⟨ts, -, same⟩ := made
    cases same
    exact Tree.wellFormed_foldl_merge _ _ Tree.wellFormed_empty
  | meet left right =>
    simp only [Making.tree?, Option.bind_eq_bind, Option.bind_eq_some_iff] at made
    obtain ⟨a, -, b, -, same⟩ := made
    cases same
    exact Tree.wellFormed_normalize _ _
  | pointee source base =>
    obtain ⟨a, -, moved⟩ := Option.bind_eq_some_iff.mp made
    exact Tree.wellFormed_of_pointeeFrom (eq_ok_of_toOption moved)
  | under source hop =>
    obtain ⟨a, found, moved⟩ := Option.bind_eq_some_iff.mp made
    exact Tree.wellFormed_of_underOffset (sound.treeAt found) (eq_ok_of_toOption moved)
  | window source offset size target =>
    obtain ⟨a, -, moved⟩ := Option.bind_eq_some_iff.mp made
    exact Tree.wellFormed_of_window (eq_ok_of_toOption moved)
  | load source size =>
    obtain ⟨a, -, loaded⟩ := Option.bind_eq_some_iff.mp made
    exact Tree.wellFormed_of_readBytes (eq_ok_of_toOption loaded)
  | toMemory source =>
    obtain ⟨a, -, same⟩ := Option.bind_eq_some_iff.mp made
    cases same
    exact Tree.wellFormed_ofEntries _ _
  | purge source | atMost source _ | truncate source _ =>
    obtain ⟨a, found, same⟩ := Option.bind_eq_some_iff.mp made
    cases same
    exact Tree.wellFormed_filter _ (sound.treeAt found)

theorem Sound.plant (sound : Sound cells) {p p' : Program} {seeds : List (ValueId × Nat)}
    (before : ∀ v, (p.seedOf v).WellFormed) (planted : plant cells p seeds = some p') :
    ∀ v, (p'.seedOf v).WellFormed := by
  induction seeds generalizing p with
  | nil =>
    cases planted
    exact before
  | cons seed rest ih =>
    obtain ⟨next, first, later⟩ := Option.bind_eq_some_iff.mp planted
    obtain ⟨t, found, rfl⟩ := Option.map_eq_some_iff.mp first
    exact ih (Program.wellFormed_seedOf_seed before (sound.treeAt found)) later

theorem Sound.append (sound : Sound cells) {more : List Cell} (later : Sound more) :
    Sound (cells ++ more) := by
  intro c member
  rcases List.mem_append.mp member with old | new
  · exact sound c old
  · exact later c new

theorem Sound.set (sound : Sound cells) {c : Cell} (wf : c.tree.WellFormed) (n : Nat) :
    Sound (cells.set n c) := by
  intro d member
  rcases List.mem_or_eq_of_mem_set member with old | rfl
  · exact sound d old
  · exact wf

/-- A call that succeeds leaves only well-formed trees. -/
theorem Sound.perform (sound : Sound cells) {op : Operation} {cells' : List Cell}
    (done : op.perform cells = some cells') : Sound cells' := by
  cases op with
  | make making =>
    obtain ⟨t, made, rfl⟩ := Option.map_eq_some_iff.mp done
    refine sound.append fun c member => ?_
    cases List.mem_singleton.mp member
    exact sound.tree? made
  | mergeIn policy target other =>
    simp only [Operation.perform, Option.bind_eq_bind, Option.bind_eq_some_iff] at done
    obtain ⟨c, found, t, -, filled, joined, same⟩ := done
    cases same
    have wf := sound c (List.mem_of_getElem? found)
    exact sound.set (Cell.wellFormed_of_mergeIn wf (eq_ok_of_toOption joined)) target
  | insert policy target hops tag =>
    simp only [Operation.perform, Option.bind_eq_bind, Option.bind_eq_some_iff] at done
    obtain ⟨c, found, filled, joined, same⟩ := done
    cases same
    have wf := sound c (List.mem_of_getElem? found)
    exact sound.set (Cell.wellFormed_of_insert wf (eq_ok_of_toOption joined)) target
  | freeze target =>
    obtain ⟨c, found, rfl⟩ := Option.map_eq_some_iff.mp done
    have wf : c.freeze.tree.WellFormed := sound c (List.mem_of_getElem? found)
    exact sound.set wf target
  | propagate functions seeds later options added =>
    simp only [Operation.perform, Option.bind_eq_bind, Option.bind_eq_some_iff] at done
    obtain ⟨p, planted, s, system, p', planted', o, ran, same⟩ := done
    cases same
    have closed := RuleSystem.closed_of_ofProgram (eq_ok_of_toOption system)
    have closed' := (RuleSystem.foldl_addRule_spec s added).2.2.2.2 closed
    have unseeded (v : ValueId) : (({ functions } : Program).seedOf v).WellFormed :=
      Tree.wellFormed_empty
    have wf := sound.plant (sound.plant unseeded planted) planted'
    refine sound.append fun c member => ?_
    obtain ⟨⟨v, slot⟩, listed, rfl⟩ := List.mem_map.mp member
    exact RuleSystem.wellFormed_of_run closed' wf (eq_ok_of_toOption ran)
      (OrderedMap.mem_entries_iff.mp listed)

theorem Sound.step (sound : Sound cells) (op : Operation) : Sound (step cells op) := by
  unfold Session.step
  cases done : op.perform cells with
  | none => exact sound
  | some cells' => exact sound.perform done

theorem Sound.foldl_step (sound : Sound cells) (ops : List Operation) :
    Sound (ops.foldl Session.step cells) := by
  induction ops generalizing cells with
  | nil => exact sound
  | cons op rest ih => exact ih (sound.step op)

/-- Every tree of a session is well-formed: the unknown tag is never stored, and whatever is stored
on the way to a stored path is a pointer. -/
theorem run_wellFormed (ops : List Operation) : ∀ c ∈ run ops, c.tree.WellFormed := by
  have start : Sound [] := fun c member => absurd member List.not_mem_nil
  exact start.foldl_step ops

/-- A session in which a scalar gains something behind it, two calls fail, and a program is analysed
that loads through one of the trees. -/
def loadSession : List Operation := [
  .make (.decode "\x7b[-1]:Pointer, [-1,0]:Pointer, [-1,0,8]:Float@double\x7d"),
  .make (.pointee 0 (-1)),
  .make (.pointee 0 0),
  .insert .distinct 1 [.int 0, .int 8, .int 4] .integer,
  .freeze 0,
  .insert .distinct 0 [.int (-1), .int 4] .integer,
  .propagate (OrderedMap.empty.insert "f" { name := "f", body := [.load "r" "p" 8] })
    [("p", 0)] [("r", 1)] default []]

/-- The session ends with a pointer to a pointer with an opaque byte behind it. -/
theorem run_wellFormed_loadSession :
    ∃ c ∈ run loadSession, c.frozen = true ∧
      c.tree.entries = [(.root, .pointer), (⟨.any, [.byte 0]⟩, .pointer),
        (⟨.any, [.byte 0, .byte 8]⟩, .anything)] ∧ c.tree.WellFormed := by
  have found : (run loadSession)[3]?.map (fun c => (c.frozen, c.tree.entries)) =
      some (true, [(.root, .pointer), (⟨.any, [.byte 0]⟩, .pointer),
        (⟨.any, [.byte 0, .byte 8]⟩, .anything)]) := by
    decide +kernel
  obtain ⟨c, last, same⟩ := Option.map_eq_some_iff.mp found
  have member := List.mem_of_getElem? last
  exact ⟨c, member, congrArg Prod.fst same, congrArg Prod.snd same, run_wellFormed _ c member⟩

end Session

end ByteLayout
