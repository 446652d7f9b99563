import Tilework.Proofs.Frame
import Tilework.Proofs.Pattern
import Tilework.Session

/-!
# Renumbering runs

The numbers of a run are seen in ids only. Beside the machines that start a run from different
numbers, one run over patterns goes through the same steps, and stamping its state from any number
gives the state of the machine that started there. So whatever number a composition starts from, it
fails alike, or succeeds with the same pattern.
-/

namespace Tilework

structure PatternFrame where
  level : UInt32 := 0
  operands : List Pattern := []
  operators : List Operator := []
  openedAt : Span := .point 0

namespace PatternFrame

def stamp (first : UInt32) (frame : PatternFrame) : Frame where
  level := frame.level
  operands := frame.operands.map (·.stamp first)
  operators := frame.operators
  openedAt := frame.openedAt

def DrawnFrom (loaded : List Tile) (frame : PatternFrame) : Prop :=
  ∀ pattern ∈ frame.operands, pattern.DrawnFrom loaded

def pushPattern (frame : PatternFrame) (pattern : Pattern) : PatternFrame :=
  { frame with operands := pattern :: frame.operands }

def receive (parent group : PatternFrame) : PatternFrame :=
  { parent with operands := group.operands.take 1 ++ parent.operands }

/-- What is left in a frame when its first operator takes its tiles. -/
def behind (frame : PatternFrame) (op : Operator) (ops : List Operator) : PatternFrame :=
  { frame with operators := ops, operands := frame.operands.drop op.arity }

theorem behind_stamp (first : UInt32) (frame : PatternFrame) (op : Operator) (ops : List Operator) :
    { frame.stamp first with
      operators := ops
      operands := (frame.stamp first).operands.drop op.arity } =
        (frame.behind op ops).stamp first := by
  simp [behind, stamp]

theorem receive_stamp (first : UInt32) (parent group : PatternFrame) :
    (parent.stamp first).receive (group.stamp first) = (parent.receive group).stamp first := by
  simp [Frame.receive, receive, stamp]

theorem exists_warnings (group : PatternFrame) :
    ∃ warnings, ∀ first, (group.stamp first).warnings = warnings := by
  rcases group with ⟨level, _ | ⟨pattern, _ | ⟨other, others⟩⟩, operators, openedAt⟩
  · exact ⟨[.emptyGroup], fun first => rfl⟩
  · exact ⟨[], fun first => rfl⟩
  · exact ⟨[.leftoverInGroup (others.length + 1)], fun first => by simp [Frame.warnings, stamp]⟩

theorem exists_applyAll (ops : List Operator) (frame : PatternFrame) (tracker : BoundTracker) :
    ∃ (outcome : Except ComposeFault Unit) (frame' : PatternFrame) (tracker' : BoundTracker),
      (∀ first, Frame.applyAll ops (frame.stamp first) tracker =
        (outcome, frame'.stamp first, tracker')) ∧
      ∀ loaded, frame.DrawnFrom loaded → frame'.DrawnFrom loaded := by
  induction ops generalizing frame tracker with
  | nil => exact ⟨.ok (), { frame with operators := [] }, tracker, fun first => rfl, fun _ h => h⟩
  | cons op ops ih =>
    -- Stamping keeps the number of operands, which decides whether there are enough.
    have hlength (first : UInt32) :
        (frame.stamp first).operands.length = frame.operands.length := List.length_map _
    by_cases hfew : frame.operands.length < op.arity
    · refine ⟨.error (.underflow op frame.operands.length), { frame with operators := ops },
        tracker, fun first => ?_, fun _ h => h⟩
      rw [Frame.applyAll, hlength, if_pos hfew]
      rfl
    · have htaken (first : UInt32) : ((frame.stamp first).operands.take op.arity).reverse =
          (frame.operands.take op.arity).reverse.map (·.stamp first) := by
        simp [stamp]
      have hbehind (loaded : List Tile) (h : frame.DrawnFrom loaded) :
          (frame.behind op ops).DrawnFrom loaded :=
        fun pattern hp => h pattern (List.mem_of_mem_drop hp)
      obtain ⟨made, middle, happly, hdrawn⟩ :=
        Pattern.exists_apply op (frame.operands.take op.arity).reverse tracker
      cases made with
      | error fault =>
        refine ⟨.error fault, frame.behind op ops, middle, fun first => ?_, hbehind⟩
        rw [Frame.applyAll, hlength, if_neg hfew, behind_stamp, htaken, happly]
        rfl
      | ok pattern =>
        obtain ⟨outcome, frame', tracker', hall, hkept⟩ :=
          ih ((frame.behind op ops).pushPattern pattern) middle
        refine ⟨outcome, frame', tracker', fun first => ?_, fun loaded h => ?_⟩
        · rw [Frame.applyAll, hlength, if_neg hfew, behind_stamp, htaken, happly]
          exact hall first
        · refine hkept loaded (List.forall_mem_cons.mpr ⟨?_, hbehind loaded h⟩)
          refine hdrawn loaded (fun p hp => ?_) pattern rfl
          exact h p (List.mem_of_mem_take (List.mem_reverse.mp hp))

end PatternFrame

/-- What a machine holds, with the loaded tiles in place of its counter and with patterns in place
of its tiles. -/
structure PatternRun (σ : Type) where
  source : σ
  loaded : List Tile := []
  bounds : BoundTracker := {}
  head : PatternFrame := {}
  below : List PatternFrame := []
  diagnostics : List Diagnostic := []

namespace PatternRun

variable {σ : Type}

/-- The machine that started from the given number. -/
def machine (first : UInt32) (run : PatternRun σ) : Machine σ where
  source := run.source
  namespaces := ⟨first + .ofNat run.loaded.length⟩
  bounds := run.bounds
  frames := ⟨run.head.stamp first, run.below.map (·.stamp first)⟩
  diagnostics := run.diagnostics

theorem next_machine (first : UInt32) (run : PatternRun σ) :
    (run.machine first).namespaces.next = first + .ofNat run.loaded.length := rfl

/-- From every number, an attempt of the machine that started there has the same outcome, up to
stamping it, and leaves the machine of the same run. -/
def Uniform {α β : Type} (stamp : UInt32 → β → α) (holds : β → PatternRun σ → Prop)
    (attempt : UInt32 → Attempt (Machine σ) α) : Prop :=
  ∃ (outcome : Except ComposeFault β) (run : PatternRun σ),
    (∀ first, attempt first = (outcome.map (stamp first), run.machine first)) ∧
      ∀ value, outcome = .ok value → holds value run

/-- Attempts without a value. -/
abbrev UniformStep (holds : PatternRun σ → Prop)
    (attempt : UInt32 → Attempt (Machine σ) Unit) : Prop :=
  Uniform (fun _ u => u) (fun () => holds) attempt

theorem UniformStep.ok {holds : PatternRun σ → Prop} {run : PatternRun σ} (h : holds run) :
    UniformStep holds fun first => (.ok (), run.machine first) :=
  ⟨.ok (), run, fun _ => rfl, fun _ _ => h⟩

variable {α β α' β' : Type} {stamp : UInt32 → β → α} {holds : β → PatternRun σ → Prop}
  {stamp' : UInt32 → β' → α'} {holds' : β' → PatternRun σ → Prop}
  {attempt : UInt32 → Attempt (Machine σ) α} {next : α → Machine σ → Attempt (Machine σ) α'}

theorem Uniform.andThen (h : Uniform stamp holds attempt)
    (hnext : ∀ value run, holds value run →
      Uniform stamp' holds' fun first => next (stamp first value) (run.machine first)) :
    Uniform stamp' holds' fun first => (attempt first).andThen next := by
  obtain ⟨outcome, run, hattempt, hholds⟩ := h
  cases outcome with
  | error fault =>
    refine ⟨.error fault, run, fun first => ?_, by simp⟩
    simp only [hattempt]
    rfl
  | ok value =>
    obtain ⟨outcome, run', hattempt', hholds'⟩ := hnext value run (hholds value rfl)
    refine ⟨outcome, run', fun first => ?_, hholds'⟩
    simp only [hattempt]
    exact hattempt' first

variable [TileSource σ]

/-- The run has read the given tokens, and its patterns belong to the tiles loaded for them. -/
structure HasRead (start : σ) (lexemes : List Lexeme) (run : PatternRun σ) : Prop where
  served : serveAll (references lexemes) start = (.ok run.loaded, run.source)
  head : run.head.DrawnFrom run.loaded
  below : ∀ frame ∈ run.below, frame.DrawnFrom run.loaded

variable {start : σ} {lexemes : List Lexeme} {run : PatternRun σ}

theorem HasRead.skip {lexeme : Lexeme} (h : run.HasRead start lexemes)
    (hreference : lexeme.token.reference? = none) : run.HasRead start (lexemes ++ [lexeme]) :=
  { h with
    served := by
      rw [references_concat, hreference, Option.toList_none, List.append_nil]
      exact h.served }

theorem HasRead.warn (h : run.HasRead start lexemes) (ds : List Diagnostic) :
    ({ run with diagnostics := run.diagnostics ++ ds }).HasRead start lexemes :=
  ⟨h.served, h.head, h.below⟩

theorem uniform_load (h : run.HasRead start lexemes) (lexeme : Lexeme) {reference : Reference}
    (hreference : lexeme.token.reference? = some reference) :
    Uniform Pattern.stamp
      (fun pattern run' => ({ run' with head := run'.head.pushPattern pattern }).HasRead start
        (lexemes ++ [lexeme]))
      fun first => (run.machine first).load reference.name reference.cls reference.param := by
  have hsource (first : UInt32) : (run.machine first).source = run.source := rfl
  simp only [Machine.load_eq, hsource]
  rcases hserve : reference.serve run.source with ⟨fault | tile, source⟩
  · exact ⟨.error fault, { run with source }, fun first => rfl, by simp⟩
  · refine ⟨.ok (.ofTile (.ofNat run.loaded.length) tile),
      { run with source, loaded := run.loaded ++ [tile] }, fun first => ?_, ?_⟩
    · simp only [next_machine, ← Pattern.stamp_ofTile]
      simp [machine, UInt32.add_assoc, UInt32.ofNat_add, Except.map]
    · intro pattern hpattern
      cases hpattern
      constructor
      · rw [references_concat, hreference]
        exact serveAll_concat h.served hserve
      · refine List.forall_mem_cons.mpr ⟨Pattern.drawnFrom_ofTile _ _, ?_⟩
        exact fun pattern hp => (h.head pattern hp).more tile
      · exact fun frame hframe pattern hp => (h.below frame hframe pattern hp).more tile

theorem uniform_drain (h : run.HasRead start lexemes) :
    UniformStep (HasRead start lexemes) fun first => (run.machine first).drain := by
  obtain ⟨outcome, head, bounds, happly, hdrawn⟩ :=
    run.head.exists_applyAll run.head.operators run.bounds
  refine ⟨outcome, { run with head, bounds }, fun first => ?_, ?_⟩
  · have hdrain : (run.machine first).frames.head.drain (run.machine first).bounds =
        (outcome, head.stamp first, bounds) := happly first
    simp only [Machine.drain, hdrain]
    cases outcome <;> rfl
  · exact fun _ _ => ⟨h.served, hdrawn _ h.head, h.below⟩

theorem uniform_closeGroup (h : run.HasRead start lexemes) (span : Span) :
    UniformStep (HasRead start lexemes) fun first => (run.machine first).closeGroup span := by
  refine (uniform_drain h).andThen fun u drained hdrained => ?_
  obtain ⟨source, loaded, bounds, group, _ | ⟨parent, below⟩, diagnostics⟩ := drained
  · exact UniformStep.ok (hdrained.warn [⟨.unbalancedClose, span⟩])
  · obtain ⟨warnings, hwarnings⟩ := group.exists_warnings
    have hgroup := hdrained.head
    have hframes := hdrained.below
    refine ⟨.ok (), ⟨source, loaded, bounds, parent.receive group, below,
      diagnostics ++ warnings.map (⟨·, group.openedAt⟩)⟩, fun first => ?_, fun _ _ => ?_⟩
    · simp only [machine, FrameStack.leave?, List.map_cons, Machine.foldl_warn, hwarnings,
        FrameStack.mapHead, PatternFrame.receive_stamp]
      rfl
    · refine ⟨hdrained.served, fun pattern hp => ?_,
        fun frame hframe => hframes frame (List.mem_cons_of_mem _ hframe)⟩
      rcases List.mem_append.mp hp with hp | hp
      · exact hgroup pattern (List.mem_of_mem_take hp)
      · exact hframes parent (by simp) pattern hp

theorem uniform_step (h : run.HasRead start lexemes) (lexeme : Lexeme) :
    UniformStep (HasRead start (lexemes ++ [lexeme]))
      fun first => (run.machine first).step lexeme := by
  rcases lexeme with ⟨token, span⟩
  cases token with
  | tile name cls param =>
    have hload := uniform_load h ⟨.tile name cls param, span⟩ rfl
    exact hload.andThen fun _ _ hread => UniformStep.ok hread
  | operator op =>
    have hreads : ({ run with
        head := { run.head with operators := op :: run.head.operators } }).HasRead start lexemes :=
      ⟨h.served, h.head, h.below⟩
    exact UniformStep.ok (hreads.skip rfl)
  | openParen =>
    have hreads : ({ run with
        head := { level := run.head.level + 1, openedAt := span }
        below := run.head :: run.below }).HasRead start lexemes :=
      ⟨h.served, fun pattern hp => absurd hp List.not_mem_nil,
        List.forall_mem_cons.mpr ⟨h.head, h.below⟩⟩
    exact UniformStep.ok (hreads.skip rfl)
  | closeParen =>
    obtain ⟨outcome, run', hclose, hreads⟩ := uniform_closeGroup h span
    exact ⟨outcome, run', hclose, fun u hu => (hreads u hu).skip rfl⟩
  | openBracket => exact UniformStep.ok ((h.warn [⟨.strayToken .openBracket, span⟩]).skip rfl)
  | closeBracket => exact UniformStep.ok ((h.warn [⟨.strayToken .closeBracket, span⟩]).skip rfl)
  | integer value => exact UniformStep.ok ((h.warn [⟨.strayToken (.integer value), span⟩]).skip rfl)

theorem uniform_steps (h : run.HasRead start lexemes) (more : List Lexeme) :
    UniformStep (HasRead start (lexemes ++ more)) fun first => (run.machine first).steps more := by
  induction more generalizing lexemes run with
  | nil =>
    rw [List.append_nil]
    exact UniformStep.ok h
  | cons lexeme more ih =>
    rw [List.append_cons]
    exact (uniform_step h lexeme).andThen fun _ _ hstep => ih hstep

theorem uniform_closeOpen (h : run.HasRead start lexemes) (stop : Span) (n : Nat) :
    UniformStep (HasRead start lexemes) fun first => (run.machine first).closeOpen stop n := by
  induction n generalizing run with
  | zero => exact UniformStep.ok h
  | succ n ih =>
    have hwarn := h.warn [⟨.unclosedOpen, run.head.openedAt⟩]
    exact (uniform_closeGroup hwarn stop).andThen fun _ _ hclose => ih hclose

/-- The pattern that a run yields belongs to the tiles loaded for its tokens. -/
def Yields (start : σ) (lexemes : List Lexeme) (pattern : Pattern) (run : PatternRun σ) : Prop :=
  serveAll (references lexemes) start = (.ok run.loaded, run.source) ∧
    pattern.DrawnFrom run.loaded

theorem uniform_result (h : run.HasRead start lexemes) (stop : Span) :
    Uniform Pattern.stamp (Yields start lexemes) fun first => (run.machine first).result stop := by
  rcases run with ⟨source, loaded, bounds, ⟨level, operands, operators, openedAt⟩, below, ds⟩
  cases operands with
  | nil => exact ⟨.error .empty, _, fun first => rfl, by simp⟩
  | cons pattern rest =>
    let more : List Diagnostic := if rest.isEmpty then [] else [⟨.leftover rest.length, stop⟩]
    rcases hadd : bounds.addAll pattern.parameterBounds.toList with ⟨fed, bounds'⟩
    refine ⟨fed.map fun () => { pattern with parameterBounds := none },
      ⟨source, loaded, bounds', ⟨level, pattern :: rest, operators, openedAt⟩, below, ds ++ more⟩,
      fun first => ?_, fun value hvalue => ?_⟩
    · simp only [Machine.result, machine, PatternFrame.stamp, List.map_cons,
        Pattern.parameterBounds_stamp, Machine.warn]
      cases rest <;> cases fed <;> simp [hadd, more, Except.map] <;> rfl
    · cases fed with
      | error fault => cases hvalue
      | ok u =>
        cases hvalue
        exact ⟨h.served, (h.head pattern (by simp)).places, (h.head pattern (by simp)).links⟩

theorem uniform_finish (h : run.HasRead start lexemes) (stop : Span) :
    Uniform Pattern.stamp (Yields start lexemes) fun first => (run.machine first).finish stop := by
  have hdepth (first : UInt32) : (run.machine first).frames.below.length = run.below.length :=
    List.length_map _
  simp only [Machine.finish, hdepth]
  refine (uniform_closeOpen h stop run.below.length).andThen fun _ closed hclosed => ?_
  exact (uniform_drain hclosed).andThen fun _ _ hdrained => uniform_result hdrained stop

/-- A run is the same from every number, up to stamping its pattern. -/
theorem uniform_run (source : σ) (bounds : BoundTracker) (lexemes : List Lexeme) (stop : Nat) :
    Uniform Pattern.stamp (Yields source lexemes) fun first =>
      ({ source, namespaces := ⟨first⟩, bounds } : Machine σ).run lexemes stop := by
  have hstart : ({ source, bounds } : PatternRun σ).HasRead source [] :=
    ⟨rfl, fun pattern hp => absurd hp List.not_mem_nil, fun frame hf => absurd hf List.not_mem_nil⟩
  have hmachine (first : UInt32) : ({ source, bounds } : PatternRun σ).machine first =
      { source, namespaces := ⟨first⟩, bounds } := by
    simp [machine, PatternFrame.stamp]
  have hrun := (uniform_steps hstart lexemes).andThen fun _ _ hread =>
    uniform_finish hread (.point stop)
  simp only [hmachine] at hrun
  exact hrun

end PatternRun

/-- Composing commutes with renumbering. For a session and an expression there is one outcome,
whatever number the session starts from: a fault, or a pattern of the loaded tiles with bounds and
diagnostics. The composition from a number holds the pattern stamped from it, and the counter goes
on by the number of tiles that were loaded. So compositions from two numbers fail alike, or differ
in the stamps of their ids only. -/
theorem Session.compose_uniform {σ : Type} [TileSource σ] (session : Session σ)
    (name expression : String) :
    ∃ (outcome : Except ComposeFault Pattern) (loaded : List Tile) (source : σ)
      (tracker : BoundTracker) (bounds : List Bound) (diagnostics : List Diagnostic),
      (∀ first, ({ session with namespaces := ⟨first⟩ } : Session σ).compose name expression =
        (outcome.map fun pattern => {
            name, expression, bounds, diagnostics
            tile := pattern.stamp first
            skipped := (TokenStream.ofText session.catalog expression).skipped },
          { session with
            source, namespaces := ⟨first + .ofNat loaded.length⟩, bounds := tracker })) ∧
      ∀ pattern, outcome = .ok pattern →
        serveAll (references (TokenStream.ofText session.catalog expression).lexemes)
          session.source = (.ok loaded, source) ∧ pattern.DrawnFrom loaded := by
  obtain ⟨outcome, run, hrun, hyields⟩ := PatternRun.uniform_run session.source session.bounds
    (TokenStream.ofText session.catalog expression).lexemes expression.utf8ByteSize
  cases outcome with
  | error fault =>
    refine ⟨.error fault, run.loaded, run.source, run.bounds.reset, [], [], fun first => ?_,
      by simp⟩
    simp only [compose, machine, hrun]
    rfl
  | ok pattern =>
    refine ⟨.ok pattern, run.loaded, run.source, (run.bounds.store name).reset, run.bounds.current,
      run.diagnostics, fun first => ?_, hyields⟩
    simp only [compose, machine, hrun]
    rfl

end Tilework
