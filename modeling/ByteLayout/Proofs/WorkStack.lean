import ByteLayout.Proofs.AccessChains

/-! # Laying out with a stack of work

A layout can be worked off with a stack: the descriptor on top is taken off, and what remains to be
laid out of it is put in its place. A name that was opened since the last address is refused, and an
address at the last depth is cut off; nothing else keeps the stack from growing. Whatever the registry
and however its names refer to each other, the stack becomes empty or the work stops with a failure,
with the answer of the recursive walk. -/

namespace ByteLayout

namespace Descriptor

/-- A descriptor that remains to be laid out at a path, inside the layouts of the names `opened`. -/
structure Frame where
  node : Descriptor
  path : Path
  opened : List String

/-- The fields of a struct as work. -/
def Frame.ofFields (p : Path) (opened : List String) (fields : List (Nat × Descriptor)) :
    List Frame :=
  fields.map fun f => ⟨f.2, p.shiftLast f.1, opened⟩

/-- Takes a frame off the stack: what comes in its place, and what has been met now. -/
def Frame.step (options : Options) (registry : Registry) (f : Frame) (trail : Trail) :
    Except Failure (List Frame × Trail) :=
  match f.node with
  | .scalar tag _ => .ok ([], trail.add f.path tag)
  | .struct fields _ _ => .ok (ofFields f.path f.opened fields, trail)
  | .array element _ count =>
    .ok (if 0 < count then [⟨element, f.path.shiftLast 0, f.opened⟩] else [], trail)
  | .pointer pointee =>
    if options.maxDepth < f.path.depth + 1 then
      (cutOff options f.path (trail.add f.path .pointer)).map fun trail' => ([], trail')
    else .ok ([⟨pointee, f.path.append (.byte 0), []⟩], trail.add f.path .pointer)
  | .ref name =>
    if name ∈ f.opened then .error ⟨.fault (.containsItself name f.opened), trail.truncations⟩
    else
      match registry.get? name with
      | none => .error ⟨.fault (.unresolved name), trail.truncations⟩
      | some d => .ok ([⟨d, f.path, f.opened ++ [name]⟩], trail)
  | .foreign datum => .error ⟨.fault (.unknown datum), trail.truncations⟩

/-- Working off a stack comes to an end with an answer. -/
inductive Ends (options : Options) (registry : Registry) :
    List Frame → Trail → Except Failure Trail → Prop where
  | done {trail : Trail} : Ends options registry [] trail (.ok trail)
  | failed {f : Frame} {rest : List Frame} {trail : Trail} {failure : Failure}
      (stopped : f.step options registry trail = .error failure) :
      Ends options registry (f :: rest) trail (.error failure)
  | next {f : Frame} {rest more : List Frame} {trail trail' : Trail}
      {answer : Except Failure Trail} (stepped : f.step options registry trail = .ok (more, trail'))
      (later : Ends options registry (more ++ rest) trail' answer) :
      Ends options registry (f :: rest) trail answer

variable {options : Options} {registry : Registry} {frames frames' : List Frame} {trail : Trail}
  {walk after : Walk}

/-- A stack has one answer only. -/
theorem Ends.unique {answer other : Except Failure Trail}
    (ends : Ends options registry frames trail answer)
    (ends' : Ends options registry frames trail other) : answer = other := by
  induction ends with
  | done =>
    cases ends'
    rfl
  | failed stopped =>
    cases ends' with
    | failed stopped' =>
      rw [stopped] at stopped'
      cases stopped'
      rfl
    | next stepped =>
      rw [stopped] at stepped
      cases stepped
  | next stepped _ ih =>
    cases ends' with
    | failed stopped =>
      rw [stepped] at stopped
      cases stopped
    | next stepped' later =>
      rw [stepped] at stepped'
      cases stepped'
      exact ih later

/-! ## Work and walks -/

/-- What comes of the rest of a stack once a walk has come to its end or failed. -/
def Continues (options : Options) (registry : Registry) (rest : List Frame) :
    Except Failure Trail → Except Failure Trail → Prop
  | .error failure, answer => answer = .error failure
  | .ok trail, answer => Ends options registry rest trail answer

/-- Working off some frames does what a walk does, whatever lies below them on the stack. -/
def Performs (options : Options) (registry : Registry) (frames : List Frame) (walk : Walk) : Prop :=
  ∀ trail rest answer, Continues options registry rest (walk trail) answer →
    Ends options registry (frames ++ rest) trail answer

theorem performs_nil : Performs options registry [] .ok := fun _ _ _ ends => ends

theorem performs_halt {f : Frame} {stop : Stop} (stopped : ∀ trail,
    f.step options registry trail = .error ⟨stop, trail.truncations⟩) :
    Performs options registry [f] (halt stop) := by
  rintro trail rest answer rfl
  exact .failed (stopped trail)

theorem Performs.of_step {f : Frame} (onward : Performs options registry frames walk)
    (change : Trail → Trail)
    (stepped : ∀ trail, f.step options registry trail = .ok (frames, change trail)) :
    Performs options registry [f] fun trail => walk (change trail) := by
  intro trail rest answer ends
  exact .next (stepped trail) (onward (change trail) rest answer ends)

theorem Performs.append (first : Performs options registry frames walk)
    (later : Performs options registry frames' after) :
    Performs options registry (frames ++ frames') (walk.andThen after) := by
  intro trail rest answer ends
  unfold Walk.andThen at ends
  rw [List.append_assoc]
  refine first trail (frames' ++ rest) answer ?_
  cases walked : walk trail with
  | error failure =>
    simp only [walked] at ends
    exact ends
  | ok between =>
    simp only [walked] at ends
    exact later between rest answer ends

/-- The answer of a walk is the only one of its frames. -/
theorem Performs.ends_iff (performs : Performs options registry frames walk) (trail : Trail)
    (answer : Except Failure Trail) :
    Ends options registry frames trail answer ↔ answer = walk trail := by
  have ends : Ends options registry frames trail (walk trail) := by
    rw [← List.append_nil frames]
    refine performs trail [] (walk trail) ?_
    cases walk trail with
    | error failure => rfl
    | ok last => exact .done
  constructor
  · exact fun other => other.unique ends
  · rintro rfl
    exact ends

/-! ## The walk over a descriptor -/

variable {p : Path} {opened : List String}

/-- At one depth, working off a frame does what the walk over it does if this is so at addresses. -/
theorem performs_steps {onPointer : Path → Descriptor → Walk} {depth : Nat}
    (pointers : ∀ opened p pointee, p.depth = depth →
      Performs options registry [⟨.pointer pointee, p, opened⟩] (onPointer p pointee)) :
    WalkSteps registry onPointer
      (fun opened p d walk => p.depth = depth → Performs options registry [⟨d, p, opened⟩] walk)
      (fun opened p fields walk => p.depth = depth →
        Performs options registry (Frame.ofFields p opened fields) walk) where
  scalar _ p tag _ _ := performs_nil.of_step (fun trail => trail.add p tag) fun _ => rfl
  struct _ _ _ _ _ _ inner level := (inner level).of_step id fun _ => rfl
  nil _ _ _ := performs_nil
  cons _ _ _ _ _ _ _ first later level := (first (by simp [level])).append (later level)
  element _ _ _ _ _ _ any inner level :=
    (inner (by simp [level])).of_step id (by simp [Frame.step, any])
  hollow _ _ _ _ _ := performs_nil.of_step id (by simp [Frame.step])
  pointer opened p pointee level := pointers opened p pointee level
  again _ _ _ member _ := performs_halt (by simp [Frame.step, member])
  missing _ _ _ new missing _ := performs_halt (by simp [Frame.step, new, missing])
  named _ _ _ _ _ new found inner level :=
    (inner level).of_step id (by simp [Frame.step, new, found])
  foreign _ _ _ _ := performs_halt fun _ => rfl

/-- An address at the last depth is the end of the work on it. -/
theorem performs_cutOff (deep : options.maxDepth < p.depth + 1) (pointee : Descriptor) :
    Performs options registry [⟨.pointer pointee, p, opened⟩]
      fun trail => cutOff options p (trail.add p .pointer) := by
  unfold cutOff
  by_cases fatal : options.recursionLimitFatal = true
  · simp only [fatal, if_true]
    refine performs_halt fun trail => ?_
    simp [Frame.step, deep, cutOff, fatal, halt, Except.map, Trail.add]
  · simp only [fatal, Bool.false_eq_true, if_false]
    refine performs_nil.of_step
      (fun trail => (trail.add p .pointer).cut ⟨p, p.depth + 1, options.maxDepth⟩) ?_
    simp [Frame.step, deep, cutOff, fatal, Except.map]

theorem performs_walk (options : Options) (registry : Registry) {depths : Nat} (d : Descriptor)
    (p : Path) (level : depths = options.maxDepth - p.depth) :
    Performs options registry [⟨d, p, []⟩] (Descriptor.walk options registry depths p d) := by
  induction depths generalizing d p with
  | zero =>
    refine (performs_steps fun opened q pointee deep => ?_).walkAmong (.nil registry) (by simp) d p
      rfl
    exact performs_cutOff (by omega) pointee
  | succ depths ih =>
    refine (performs_steps fun opened q pointee deep => ?_).walkAmong (.nil registry) (by simp) d p
      rfl
    have onward := ih pointee (q.append (.byte 0)) (by rw [Path.depth_append]; omega)
    have shallow : ¬ options.maxDepth < q.depth + 1 := by omega
    exact onward.of_step (fun trail => trail.add q .pointer)
      (by simp [Frame.step, shallow])

end Descriptor

end ByteLayout
