import Tilework.Proofs.Frame

/-!
# Forests

A forest is a balanced text: references, operators and forests in parentheses, one after another.
Evaluating it goes through it from left to right and collects tiles and operators in a row; then the
operators apply from last to first, each to the last tiles of the row. A machine that runs the
tokens of a forest ends as its evaluation does, with the same fault or the same tile, and with the
same source, namespaces, bounds and diagnostics.
-/

namespace Tilework

/-- Items in the order of the text, with their places. -/
inductive Forest where
  | nil
  | tile (reference : Reference) (span : Span) (rest : Forest)
  | operator (op : Operator) (span : Span) (rest : Forest)
  | group (opened closed : Span) (inner rest : Forest)
deriving DecidableEq, Repr

def Forest.lexemes : Forest → List Lexeme
  | nil => []
  | tile reference span rest =>
    ⟨.tile reference.name reference.cls reference.param, span⟩ :: rest.lexemes
  | operator op span rest => ⟨.operator op, span⟩ :: rest.lexemes
  | group opened closed inner rest =>
    ⟨.openParen, opened⟩ :: inner.lexemes ++ ⟨.closeParen, closed⟩ :: rest.lexemes

/-- What an evaluation threads through a forest. -/
structure Context (σ : Type) where
  source : σ
  namespaces : NamespaceCounter
  bounds : BoundTracker
  diagnostics : List Diagnostic

/-- Tiles and operators in the order of the text. -/
structure Row where
  tiles : List Tile := []
  operators : List Operator := []

/-- Apply an operator to the last tiles, which are replaced by the merged one. -/
def applyLast (op : Operator) (tiles : List Tile) (tracker : BoundTracker) :
    Attempt BoundTracker (List Tile) :=
  if tiles.length < op.arity then (.error (.underflow op tiles.length), tracker)
  else
    (op.apply (tiles.drop (tiles.length - op.arity)) tracker).andThen fun tile tracker =>
      (.ok (tiles.take (tiles.length - op.arity) ++ [tile]), tracker)

def applyBackwards : List Operator → List Tile → BoundTracker → Attempt BoundTracker (List Tile)
  | [], tiles, tracker => (.ok tiles, tracker)
  | op :: ops, tiles, tracker => (applyBackwards ops tiles tracker).andThen (applyLast op)

/-- What there is to say about a group that leaves a number of tiles. -/
def groupWarnings : Nat → List Warning
  | 0 => [.emptyGroup]
  | 1 => []
  | n + 2 => [.leftoverInGroup (n + 1)]

/-- What there is to say about a text that leaves a number of tiles. -/
def textWarnings : Nat → List Warning
  | 0 => []
  | 1 => []
  | n + 2 => [.leftover (n + 1)]

section evaluation

variable {σ : Type} [TileSource σ]

namespace Context

def warn (c : Context σ) (warnings : List Warning) (span : Span) : Context σ :=
  { c with diagnostics := c.diagnostics ++ warnings.map (⟨·, span⟩) }

omit [TileSource σ] in
@[simp] theorem warn_nil (c : Context σ) (span : Span) : c.warn [] span = c := by
  simp [warn]

def load (c : Context σ) (reference : Reference) : Attempt (Context σ) Tile :=
  match reference.serve c.source with
  | (.error fault, source) => (.error fault, { c with source })
  | (.ok tile, source) =>
    (.ok (tile.stamp c.namespaces.next.toNat),
      { c with source, namespaces := ⟨c.namespaces.next + 1⟩ })

def drain (c : Context σ) (row : Row) : Attempt (Context σ) (List Tile) :=
  let (result, bounds) := applyBackwards row.operators row.tiles c.bounds
  (result, { c with bounds })

def result (c : Context σ) (stop : Nat) (tiles : List Tile) : Attempt (Context σ) Tile :=
  match tiles.getLast? with
  | none => (.error .empty, c)
  | some last =>
    let c := c.warn (textWarnings tiles.length) (.point stop)
    let (fed, bounds) := c.bounds.addAll last.parameterBounds.toList
    (fed.map fun () => { last with parameterBounds := none }, { c with bounds })

end Context

namespace Forest

/-- Go through a forest and extend a row. A group in parentheses is evaluated by itself, and its
last tile is put into the row. -/
def read : Forest → Row → Context σ → Attempt (Context σ) Row
  | nil, row, c => (.ok row, c)
  | tile reference _ rest, row, c =>
    (c.load reference).andThen fun loaded c =>
      rest.read { row with tiles := row.tiles ++ [loaded] } c
  | operator op _ rest, row, c => rest.read { row with operators := row.operators ++ [op] } c
  | group opened _ inner rest, row, c =>
    ((inner.read {} c).andThen fun inside c => c.drain inside).andThen fun tiles c =>
      rest.read { row with tiles := row.tiles ++ tiles.getLast?.toList }
        (c.warn (groupWarnings tiles.length) opened)

/-- Evaluate a text that ends at `stop`. -/
def compose (forest : Forest) (stop : Nat) (c : Context σ) : Attempt (Context σ) Tile :=
  ((forest.read {} c).andThen fun row c => c.drain row).andThen fun tiles c => c.result stop tiles

end Forest

end evaluation

theorem applyBackwards_concat (ops : List Operator) (op : Operator) (tiles : List Tile)
    (tracker : BoundTracker) :
    applyBackwards (ops ++ [op]) tiles tracker =
      (applyLast op tiles tracker).andThen (applyBackwards ops) := by
  induction ops with
  | nil =>
    rw [List.nil_append, applyBackwards, applyBackwards, Attempt.andThen_ok]
    rcases applyLast op tiles tracker with ⟨_ | tiles, tracker⟩ <;> rfl
  | cons first ops ih =>
    rw [List.cons_append, applyBackwards, ih, Attempt.andThen_assoc]
    rfl

theorem Frame.applyAll_eq (ops : List Operator) (frame : Frame) (tracker : BoundTracker) :
    match applyBackwards ops.reverse frame.operands.reverse tracker with
    | (.ok tiles, tracker') =>
      applyAll ops frame tracker =
        (.ok (), { frame with operands := tiles.reverse, operators := [] }, tracker')
    | (.error fault, tracker') =>
      ∃ frame', applyAll ops frame tracker = (.error fault, frame', tracker') := by
  induction ops generalizing frame tracker with
  | nil => simp [applyBackwards, applyAll]
  | cons op ops ih =>
    rw [List.reverse_cons, applyBackwards_concat, applyLast, applyAll, List.length_reverse]
    by_cases hlength : frame.operands.length < op.arity
    · rw [if_pos hlength, if_pos hlength]
      exact ⟨_, rfl⟩
    · have hdrop : frame.operands.reverse.drop (frame.operands.length - op.arity) =
          (frame.operands.take op.arity).reverse := by
        rw [List.drop_reverse]
        congr 2
        omega
      have htake : frame.operands.reverse.take (frame.operands.length - op.arity) =
          (frame.operands.drop op.arity).reverse := by
        rw [List.take_reverse]
        congr 2
        omega
      rw [if_neg hlength, if_neg hlength, hdrop, htake]
      rcases op.apply (frame.operands.take op.arity).reverse tracker with ⟨fault | tile, middle⟩
      · exact ⟨_, rfl⟩
      · have := ih ({ frame with
          operators := ops, operands := frame.operands.drop op.arity }.pushTile tile) middle
        rw [pushTile, List.reverse_cons] at this
        exact this

section simulation

variable {σ β γ : Type}

/-- What a machine threads through a text, without its frames. -/
def Machine.context (m : Machine σ) : Context σ := ⟨m.source, m.namespaces, m.bounds, m.diagnostics⟩

def Context.machine (c : Context σ) (frames : FrameStack) : Machine σ :=
  ⟨c.source, c.namespaces, c.bounds, frames, c.diagnostics⟩

def FrameStack.put (stack : FrameStack) (row : Row) : FrameStack :=
  stack.mapHead fun head =>
    { head with operands := row.tiles.reverse, operators := row.operators.reverse }

/-- A run ends as an evaluation does. After success its frames are known. -/
def Refines (run : Attempt (Machine σ) Unit) (evaluation : Attempt (Context σ) β)
    (frames : β → FrameStack) : Prop :=
  match evaluation with
  | (.ok value, c) => run = (.ok (), c.machine (frames value))
  | (.error fault, c) => ∃ left, run = (.error fault, c.machine left)

theorem Refines.andThen {run : Attempt (Machine σ) Unit} {evaluation : Attempt (Context σ) β}
    {frames : β → FrameStack} {next : Unit → Machine σ → Attempt (Machine σ) Unit}
    {next' : β → Context σ → Attempt (Context σ) γ} {frames' : γ → FrameStack}
    (h : Refines run evaluation frames)
    (hnext : ∀ value c, evaluation = (.ok value, c) →
      Refines (next () (c.machine (frames value))) (next' value c) frames') :
    Refines (run.andThen next) (evaluation.andThen next') frames' := by
  rcases evaluation with ⟨fault | value, c⟩
  · obtain ⟨left, rfl⟩ := h
    exact ⟨left, rfl⟩
  · rw [Refines] at h
    rw [h]
    exact hnext value c rfl

theorem refines_andThen_ok {run : Attempt (Machine σ) Unit} {evaluation : Attempt (Context σ) β}
    {f : β → γ} {frames : γ → FrameStack} :
    Refines run (evaluation.andThen fun value c => (.ok (f value), c)) frames ↔
      Refines run evaluation fun value => frames (f value) := by
  rcases evaluation with ⟨fault | value, c⟩ <;> rfl

theorem Context.refines_drain (c : Context σ) (stack : FrameStack) (row : Row) :
    Refines (c.machine (stack.put row)).drain (c.drain row) fun tiles => stack.put { tiles } := by
  have happly := Frame.applyAll_eq row.operators.reverse (stack.put row).head c.bounds
  simp only [FrameStack.put, FrameStack.mapHead, List.reverse_reverse] at happly
  simp only [Machine.drain, Frame.drain, machine, FrameStack.put, FrameStack.mapHead, drain]
  rcases happlied : applyBackwards row.operators row.tiles c.bounds with ⟨fault | tiles, bounds⟩
  · rw [happlied] at happly
    obtain ⟨frame, hframe⟩ := happly
    rw [hframe]
    exact ⟨_, rfl⟩
  · rw [happlied] at happly
    simp only at happly
    rw [happly]
    rfl

variable [TileSource σ]

theorem Machine.steps_append (xs ys : List Lexeme) (m : Machine σ) :
    m.steps (xs ++ ys) = (m.steps xs).andThen fun () m => m.steps ys := by
  induction xs generalizing m with
  | nil => rfl
  | cons x xs ih =>
    simp only [List.cons_append, steps, ih, Attempt.andThen_assoc]

namespace Context

variable (c : Context σ) (stack : FrameStack) (row : Row)

theorem refines_load (reference : Reference) (span : Span) :
    Refines ((c.machine (stack.put row)).step
        ⟨.tile reference.name reference.cls reference.param, span⟩)
      (c.load reference) fun tile => stack.put { row with tiles := row.tiles ++ [tile] } := by
  have hpush (tile : Tile) : (stack.put row).mapHead (·.pushTile tile) =
      stack.put { row with tiles := row.tiles ++ [tile] } := by
    simp [FrameStack.put, FrameStack.mapHead, Frame.pushTile]
  simp only [Machine.step, Machine.load_eq, load, machine]
  rcases reference.serve c.source with ⟨fault | tile, source⟩
  · exact ⟨_, rfl⟩
  · simp only [Refines, Attempt.andThen_ok, machine, hpush]

theorem refines_operator (op : Operator) (span : Span) :
    (c.machine (stack.put row)).step ⟨.operator op, span⟩ =
      (.ok (), c.machine (stack.put { row with operators := row.operators ++ [op] })) := by
  simp [Machine.step, machine, FrameStack.put, FrameStack.mapHead, Frame.pushOperator]

theorem refines_close (opened closed : Span) (inside : Row) :
    Refines ((c.machine (((stack.put row).enter opened).put inside)).step ⟨.closeParen, closed⟩)
      ((c.drain inside).andThen fun tiles c =>
        (.ok tiles, c.warn (groupWarnings tiles.length) opened))
      fun tiles => stack.put { row with tiles := row.tiles ++ tiles.getLast?.toList } := by
  refine Refines.andThen (refines_drain c _ inside) ?_
  intro tiles c _
  have hleave : (((stack.put row).enter opened).put { tiles }).leave? =
      some ((((stack.put row).enter opened).put { tiles }).head, stack.put row) := rfl
  have hwarnings : (((stack.put row).enter opened).put { tiles }).head.warnings =
      groupWarnings tiles.length := by
    change Frame.warnings { operands := tiles.reverse } = groupWarnings tiles.length
    rw [← List.length_reverse]
    match tiles.reverse with
    | [] => rfl
    | [_] => rfl
    | _ :: _ :: _ => rfl
  have hreceive : (stack.put row).mapHead
      (·.receive (((stack.put row).enter opened).put { tiles }).head) =
        stack.put { row with tiles := row.tiles ++ tiles.getLast?.toList } := by
    have hlast : tiles.reverse.take 1 = tiles.getLast?.toList.reverse := by
      rw [List.getLast?_eq_head?_reverse]
      cases tiles.reverse <;> rfl
    simp [FrameStack.put, FrameStack.mapHead, Frame.receive, FrameStack.enter, hlast]
  simp only [machine, hleave, Machine.foldl_warn, hwarnings, hreceive]
  rfl

end Context

/-- Stepping through the tokens of a forest reads it into the innermost frame. -/
theorem Forest.refines_read (forest : Forest) (row : Row) (c : Context σ) (stack : FrameStack) :
    Refines ((c.machine (stack.put row)).steps forest.lexemes) (forest.read row c) stack.put := by
  induction forest generalizing row c stack with
  | nil => rfl
  | tile reference span rest ih =>
    exact (c.refines_load stack row reference span).andThen fun loaded c _ => ih _ c stack
  | operator op span rest ih =>
    rw [lexemes, Machine.steps, Context.refines_operator]
    exact ih _ c stack
  | group opened closed inner rest ihi ihr =>
    have hopen : (c.machine (stack.put row)).step ⟨.openParen, opened⟩ =
        (.ok (), c.machine (((stack.put row).enter opened).put {})) := rfl
    have hread : (group opened closed inner rest).read row c =
        (inner.read {} c).andThen fun inside c =>
          ((c.drain inside).andThen fun tiles c =>
            (.ok tiles, c.warn (groupWarnings tiles.length) opened)).andThen fun tiles c =>
              rest.read { row with tiles := row.tiles ++ tiles.getLast?.toList } c := by
      simp only [read, Attempt.andThen_assoc, Attempt.andThen_ok]
    rw [lexemes, List.cons_append, Machine.steps, hopen, Attempt.andThen_ok, Machine.steps_append,
      hread]
    refine (ihi {} c _).andThen ?_
    intro inside c _
    exact (c.refines_close stack row opened closed inside).andThen fun tiles c _ => ihr _ c stack

omit [TileSource σ] in
theorem Context.result_eq (c : Context σ) (tiles : List Tile) (stop : Nat) :
    Prod.map id Machine.context ((c.machine (FrameStack.put {} { tiles })).result (.point stop)) =
      c.result stop tiles := by
  rcases List.eq_nil_or_concat' tiles with rfl | ⟨others, last, rfl⟩
  · rfl
  · have hoperands :
        (c.machine (FrameStack.put {} { tiles := others ++ [last] })).frames.head.operands =
        last :: others.reverse := by
      simp [machine, FrameStack.put, FrameStack.mapHead]
    have hwarn (frames : FrameStack) :
        (if others.reverse.isEmpty then c.machine frames
          else (c.machine frames).warn (.leftover others.reverse.length) (.point stop)) =
          (c.warn (textWarnings (others ++ [last]).length) (.point stop)).machine frames := by
      rcases List.eq_nil_or_concat' others with rfl | ⟨others, other, rfl⟩
      · simp [Context.warn, textWarnings]
      · simp [Context.warn, textWarnings, machine, Machine.warn]
    rw [Machine.result, hoperands]
    simp only [hwarn, result, List.getLast?_concat]
    rfl

/-- A run ends as the evaluation of its tokens does, drained. -/
theorem Machine.run_eq {lexemes : List Lexeme} {c : Context σ}
    {evaluation : Attempt (Context σ) Row}
    (h : Refines ((c.machine {}).steps lexemes) evaluation (FrameStack.put {})) (stop : Nat) :
    Prod.map id context ((c.machine {}).run lexemes stop) =
      (evaluation.andThen fun row c => c.drain row).andThen fun tiles c => c.result stop tiles := by
  have hdrain : Refines
      (((c.machine {}).steps lexemes).andThen fun () m =>
        (m.closeOpen (.point stop) m.frames.below.length).andThen fun () m => m.drain)
      (evaluation.andThen fun row c => c.drain row) fun tiles => FrameStack.put {} { tiles } :=
    h.andThen fun row c _ => c.refines_drain {} row
  have hrun : (c.machine {}).run lexemes stop =
      (((c.machine {}).steps lexemes).andThen fun () m =>
        (m.closeOpen (.point stop) m.frames.below.length).andThen fun () m => m.drain).andThen
          fun () m => m.result (.point stop) := by
    simp only [run, finish, Attempt.andThen_assoc]
  rw [hrun]
  rcases hevaluation : evaluation.andThen fun row c => c.drain row with ⟨fault | tiles, c'⟩
  · rw [hevaluation] at hdrain
    obtain ⟨left, hleft⟩ := hdrain
    rw [hleft]
    rfl
  · rw [hevaluation, Refines] at hdrain
    rw [hdrain, Attempt.andThen_ok, Attempt.andThen_ok]
    exact c'.result_eq tiles stop

/-- A machine runs the tokens of a forest as the forest is evaluated: both fail with one fault, or
both give one tile, and what they thread ends the same. -/
theorem Machine.run_forest (forest : Forest) (stop : Nat) (c : Context σ) :
    Prod.map id context ((c.machine {}).run forest.lexemes stop) = forest.compose stop c :=
  run_eq (forest.refines_read {} c {}) stop

end simulation

end Tilework
