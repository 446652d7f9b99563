import Tilework.Proofs.Bracketing

/-!
# What there is to say about a text

The diagnostics of a run that succeeds can be read off a bracketing of its text. Tokens without a
meaning and parentheses without a partner are reported where they stand, and so are groups in which
no reference stands. Where more operands stand than the operators beside them take, those left over
are counted. Draining, early or late, takes as many operands as its operators say, so the count does
not depend on when it happens.
-/

namespace Tilework

theorem Operator.two_le_arity (op : Operator) : 2 ≤ op.arity := by
  cases op <;> decide

/-- By how many tiles operators reduce the number of tiles. -/
def reduction (ops : List Operator) : Nat := (ops.map fun op => op.arity - 1).sum

theorem reduction_nil : reduction [] = 0 := rfl

theorem reduction_append (xs ys : List Operator) :
    reduction (xs ++ ys) = reduction xs + reduction ys := by
  simp [reduction]

theorem reduction_cons (op : Operator) (ops : List Operator) :
    reduction (op :: ops) = op.arity - 1 + reduction ops := by
  simp [reduction]

/-- What stands directly in a group, or outside of all groups. -/
structure Level where
  operands : Nat := 0
  operators : List Operator := []

namespace Level

def append (a b : Level) : Level := ⟨a.operands + b.operands, a.operators ++ b.operators⟩

/-- The number of operands that are left over beside the result. -/
def excess (level : Level) : Nat := level.operands - (1 + reduction level.operators)

theorem excess_eq_of_add_eq {level : Level} {n : Nat}
    (h : n + reduction level.operators = level.operands) : level.excess = n - 1 := by
  rw [excess]
  omega

theorem empty_append (level : Level) : append {} level = level := by
  rw [append, Nat.zero_add, List.nil_append]

def ofToken (token : Token) : Level :=
  ⟨token.reference?.toList.length, token.operator?.toList⟩

/-- A group is an operand of what is around it if a reference stands in it, at any depth. -/
def ofGroup (lexemes : List Lexeme) : Level where
  operands := if references lexemes = [] then 0 else 1

end Level

/-! ## Levels and reports of bracketings -/

/-- What there is to say about a group, given its tokens and what stands directly in it. -/
def groupReport (lexemes : List Lexeme) (level : Level) : List Warning :=
  (if references lexemes = [] then [.emptyGroup] else []) ++
    if level.excess = 0 then [] else [.leftoverInGroup level.excess]

def tokenReport (token : Token) : List Warning :=
  if token.isStray then [.strayToken token] else []

namespace Passage

def level : Passage → Level
  | nil => {}
  | word lexeme _ rest => (Level.ofToken lexeme.token).append rest.level
  | group _ _ inner rest => (Level.ofGroup inner.lexemes).append rest.level

def report : Passage → List Diagnostic
  | nil => []
  | word lexeme _ rest => (tokenReport lexeme.token).map (⟨·, lexeme.span⟩) ++ rest.report
  | group opened _ inner rest =>
    inner.report ++ (groupReport inner.lexemes inner.level).map (⟨·, opened⟩) ++ rest.report

end Passage

namespace OpenPassage

def level : OpenPassage → Level
  | closed passage => passage.level
  | unclosed before _ inner => before.level.append (Level.ofGroup inner.lexemes)

def report : OpenPassage → List Diagnostic
  | closed passage => passage.report
  | unclosed before opened inner =>
    before.report ++ (inner.report ++ ⟨.unclosedOpen, opened⟩ ::
      (groupReport inner.lexemes inner.level).map (⟨·, opened⟩))

end OpenPassage

namespace Bracketing

def level : Bracketing → Level
  | last passage => passage.level
  | surplus before _ rest => before.level.append rest.level

def report : Bracketing → List Diagnostic
  | last passage => passage.report
  | surplus before closed rest =>
    before.report ++ ⟨.unbalancedClose, closed⟩ :: rest.report

/-- All that there is to say about a text that ends at `stop`. -/
def diagnostics (b : Bracketing) (stop : Nat) : List Diagnostic :=
  b.report ++ if b.level.excess = 0 then [] else [⟨.leftover b.level.excess, .point stop⟩]

end Bracketing

/-! ## Where references stand -/

theorem references_append (xs ys : List Lexeme) :
    references (xs ++ ys) = references xs ++ references ys :=
  List.filterMap_append

theorem operands_append_eq_zero_iff {a b : Level} :
    (a.append b).operands = 0 ↔ a.operands = 0 ∧ b.operands = 0 :=
  Nat.add_eq_zero_iff

theorem operands_ofGroup_eq_zero_iff {lexemes : List Lexeme} :
    (Level.ofGroup lexemes).operands = 0 ↔ references lexemes = [] := by
  rw [Level.ofGroup]
  split <;> simp [*]

theorem Passage.operands_eq_zero_iff (passage : Passage) :
    passage.level.operands = 0 ↔ references passage.lexemes = [] := by
  induction passage with
  | nil => exact ⟨fun _ => rfl, fun _ => rfl⟩
  | word lexeme plain rest ih =>
    have hreferences : references (word lexeme plain rest).lexemes =
        lexeme.token.reference?.toList ++ references rest.lexemes := by
      rw [lexemes, ← List.singleton_append, references_append]
      exact congrArg (· ++ references rest.lexemes) (references_concat [] lexeme)
    rw [level, operands_append_eq_zero_iff, ih, hreferences, List.append_eq_nil_iff]
    exact and_congr_left' List.length_eq_zero_iff
  | group opened closed inner rest ihi ihr =>
    have hreferences : references (group opened closed inner rest).lexemes =
        references inner.lexemes ++ references rest.lexemes := references_append _ _
    rw [level, operands_append_eq_zero_iff, operands_ofGroup_eq_zero_iff, ihr, hreferences,
      List.append_eq_nil_iff]

theorem OpenPassage.operands_eq_zero_iff (passage : OpenPassage) :
    passage.level.operands = 0 ↔ references passage.lexemes = [] := by
  cases passage with
  | closed passage => exact passage.operands_eq_zero_iff
  | unclosed before opened inner =>
    have hreferences : references (unclosed before opened inner).lexemes =
        references before.lexemes ++ references inner.lexemes := references_append _ _
    rw [level, operands_append_eq_zero_iff, operands_ofGroup_eq_zero_iff,
      before.operands_eq_zero_iff, hreferences, List.append_eq_nil_iff]

/-! ## Frames that take in a level -/

namespace Frame

/-- How a frame changes when a level is read into it, with operators that are applied or wait. -/
structure TakesIn (frame frame' : Frame) (level : Level) : Prop where
  balance : frame'.operands.length + (reduction frame.operators + reduction level.operators) =
    frame.operands.length + level.operands + reduction frame'.operators
  operands : frame'.operands = [] ↔ frame.operands = [] ∧ level.operands = 0
  openedAt : frame'.openedAt = frame.openedAt

theorem TakesIn.refl (frame : Frame) : frame.TakesIn frame {} where
  balance := rfl
  operands := (and_iff_left rfl).symm
  openedAt := rfl

theorem TakesIn.trans {a b c : Frame} {level level' : Level} (h : a.TakesIn b level)
    (h' : b.TakesIn c level') : a.TakesIn c (level.append level') where
  balance := by
    have hfirst := h.balance
    have hsecond := h'.balance
    simp only [Level.append, reduction_append]
    omega
  operands := by
    rw [h'.operands, h.operands, operands_append_eq_zero_iff, and_assoc]
  openedAt := h'.openedAt.trans h.openedAt

theorem takesIn_pushTile (frame : Frame) (tile : Tile) :
    frame.TakesIn (frame.pushTile tile) ⟨1, []⟩ where
  balance := rfl
  operands := by simp [pushTile]
  openedAt := rfl

theorem takesIn_pushOperator (frame : Frame) (op : Operator) :
    frame.TakesIn (frame.pushOperator op) ⟨0, [op]⟩ where
  balance := by
    simp only [pushOperator, reduction_cons, reduction_nil]
    omega
  operands := by simp [pushOperator]
  openedAt := rfl

theorem length_applyAll {ops : List Operator} {frame frame' : Frame}
    {tracker tracker' : BoundTracker}
    (h : applyAll ops frame tracker = (.ok (), frame', tracker')) :
    frame'.operands.length + reduction ops = frame.operands.length ∧
      (frame'.operands = [] ↔ frame.operands = []) ∧ frame'.operators = [] ∧
      frame'.openedAt = frame.openedAt := by
  induction ops generalizing frame tracker with
  | nil =>
    cases h
    exact ⟨rfl, Iff.rfl, rfl, rfl⟩
  | cons op ops ih =>
    obtain ⟨hlength, tile, middle, happly, h⟩ := applyAll_cons_eq_ok h
    obtain ⟨hcount, hnil, hdrained, hopened⟩ := ih h
    have harity := op.two_le_arity
    simp only [List.length_cons, List.length_drop] at hcount
    have hsome : frame.operands ≠ [] := by
      intro hnone
      rw [hnone, List.length_nil] at hlength
      omega
    refine ⟨?_, ?_, hdrained, hopened⟩
    · rw [reduction_cons]
      omega
    · exact iff_of_false (fun hnone => List.cons_ne_nil _ _ (hnil.mp hnone)) hsome

theorem TakesIn.applyAll {a b c : Frame} {level : Level} {tracker tracker' : BoundTracker}
    (h : a.TakesIn b level)
    (happly : Frame.applyAll b.operators b tracker = (.ok (), c, tracker')) :
    a.TakesIn c level ∧ c.operators = [] := by
  obtain ⟨hcount, hnil, hdrained, hopened⟩ := length_applyAll happly
  refine ⟨⟨?_, hnil.trans h.operands, hopened.trans h.openedAt⟩, hdrained⟩
  have hbalance := h.balance
  rw [hdrained, reduction_nil]
  omega

theorem TakesIn.length_of_drained {a b : Frame} {level : Level} (h : a.TakesIn b level)
    (hoperands : a.operands = []) (hoperators : a.operators = []) (hdrained : b.operators = []) :
    b.operands.length + reduction level.operators = level.operands := by
  have hbalance := h.balance
  rw [hoperands, hoperators, hdrained, List.length_nil, reduction_nil] at hbalance
  omega

theorem warnings_eq_groupReport {group : Frame} {lexemes : List Lexeme} {level : Level}
    (hnil : group.operands = [] ↔ references lexemes = [])
    (hcount : group.operands.length + reduction level.operators = level.operands) :
    group.warnings = groupReport lexemes level := by
  rw [warnings, groupReport, Level.excess_eq_of_add_eq hcount]
  simp only [← hnil]
  rcases group.operands with _ | ⟨tile, _ | ⟨other, others⟩⟩ <;> rfl

theorem takesIn_receive (parent : Frame) {group : Frame} {lexemes : List Lexeme}
    (hnil : group.operands = [] ↔ references lexemes = []) :
    parent.TakesIn (parent.receive group) (.ofGroup lexemes) := by
  cases hoperands : group.operands with
  | nil =>
    have hnone : references lexemes = [] := hnil.mp hoperands
    simpa [receive, hoperands, Level.ofGroup, hnone] using TakesIn.refl parent
  | cons tile rest =>
    have hsome : references lexemes ≠ [] := fun hnone => by simp [hnil.mpr hnone] at hoperands
    constructor
    · simp [receive, hoperands, Level.ofGroup, hsome, reduction]
    · simp [receive, hoperands, Level.ofGroup, hsome]
    · rfl

end Frame

section machine

variable {σ : Type}

namespace Machine

/-- What a machine becomes when a level is read, with what there is to say about it. -/
structure Covers (m m' : Machine σ) (level : Level) (report : List Diagnostic) : Prop where
  below : m'.frames.below = m.frames.below
  head : m.frames.head.TakesIn m'.frames.head level
  diagnostics : m'.diagnostics.Perm (m.diagnostics ++ report)

variable {m m' m'' : Machine σ} {level level' : Level} {report report' : List Diagnostic}

theorem Covers.trans (h : Covers m m' level report) (h' : Covers m' m'' level' report') :
    Covers m m'' (level.append level') (report ++ report') where
  below := h'.below.trans h.below
  head := h.head.trans h'.head
  diagnostics := by
    rw [← List.append_assoc]
    exact h'.diagnostics.trans (h.diagnostics.append_right report')

theorem Covers.refl (m : Machine σ) : Covers m m {} [] where
  below := rfl
  head := .refl _
  diagnostics := by rw [List.append_nil]

theorem Covers.warn (h : Covers m m' level report) (warning : Warning) (span : Span) :
    Covers m (m'.warn warning span) level (report ++ [⟨warning, span⟩]) where
  below := h.below
  head := h.head
  diagnostics := by
    rw [← List.append_assoc]
    exact h.diagnostics.append_right _

theorem Covers.drain (h : Covers m m' level report) (hdrain : m'.drain = (.ok (), m'')) :
    Covers m m'' level report ∧ m''.frames.head.operators = [] := by
  obtain ⟨head, bounds, happly, rfl⟩ := drain_eq_ok hdrain
  obtain ⟨hhead, hdrained⟩ := h.head.applyAll happly
  exact ⟨⟨h.below, hhead, h.diagnostics⟩, hdrained⟩

theorem Covers.close {opened span : Span} {lexemes : List Lexeme}
    (h : Covers { m with frames := m.frames.enter opened } m' level report)
    (hlevel : level.operands = 0 ↔ references lexemes = [])
    (hclose : m'.closeGroup span = (.ok (), m'')) :
    Covers m m'' (Level.ofGroup lexemes)
      (report ++ (groupReport lexemes level).map (⟨·, opened⟩)) := by
  obtain ⟨drained, hdrain, hcases⟩ := closeGroup_eq_ok hclose
  obtain ⟨hcovers, hdrained⟩ := h.drain hdrain
  have hbelow : drained.frames.below = m.frames.head :: m.frames.below := hcovers.below
  rcases hcases with ⟨hnone, -⟩ | ⟨group, rest, hleave, rfl⟩
  · rw [hbelow] at hnone
    cases hnone
  obtain ⟨rfl, hrest⟩ := FrameStack.leave?_eq_some hleave
  obtain ⟨hhead, hframes⟩ := List.cons.inj (hbelow.symm.trans hrest)
  have hcount := hcovers.head.length_of_drained rfl rfl hdrained
  have hnil : drained.frames.head.operands = [] ↔ references lexemes = [] := by
    rw [hcovers.head.operands, ← hlevel]
    exact and_iff_right rfl
  have hopened : drained.frames.head.openedAt = opened := hcovers.head.openedAt
  refine ⟨hframes.symm, ?_, ?_⟩
  · rw [hhead]
    exact Frame.takesIn_receive rest.head hnil
  · rw [hopened, Frame.warnings_eq_groupReport hnil hcount, ← List.append_assoc]
    exact hcovers.diagnostics.append_right _

theorem covers_of_closeGroup_of_below_eq_nil {span : Span} (hbelow : m.frames.below = [])
    (hclose : m.closeGroup span = (.ok (), m')) :
    Covers m m' {} [⟨.unbalancedClose, span⟩] := by
  obtain ⟨drained, hdrain, hcases⟩ := closeGroup_eq_ok hclose
  obtain ⟨hcovers, -⟩ := (Covers.refl m).drain hdrain
  have hnone : drained.frames.below = [] := hcovers.below.trans hbelow
  rcases hcases with ⟨-, rfl⟩ | ⟨group, rest, hleave, -⟩
  · exact hcovers.warn .unbalancedClose span
  · obtain ⟨-, hsome⟩ := FrameStack.leave?_eq_some hleave
    rw [hnone] at hsome
    cases hsome

theorem closeOpen_succ (stop : Span) (n : Nat) (m : Machine σ) :
    m.closeOpen stop (n + 1) = (m.closeOpen stop n).andThen fun () m =>
      (m.warn .unclosedOpen m.frames.head.openedAt).closeGroup stop := by
  induction n generalizing m with
  | zero =>
    rw [closeOpen, closeOpen, Attempt.andThen_ok]
    exact Attempt.andThen_ok_self _
  | succ n ih =>
    rw [closeOpen, closeOpen, Attempt.andThen_assoc]
    congr 1
    funext u closed
    exact ih closed

variable [TileSource σ]

theorem covers_of_step {lexeme : Lexeme} (plain : lexeme.token.isParenthesis = false)
    (h : m.step lexeme = (.ok (), m')) :
    Covers m m' (.ofToken lexeme.token)
      ((tokenReport lexeme.token).map (⟨·, lexeme.span⟩)) := by
  rcases lexeme with ⟨token, span⟩
  cases token with
  | tile name cls param =>
    obtain ⟨tile, source, -, rfl⟩ := step_tile_eq_ok ⟨name, cls, param⟩ h
    exact ⟨rfl, Frame.takesIn_pushTile _ _, by simp [tokenReport, Token.isStray]⟩
  | operator op =>
    cases h
    exact ⟨rfl, Frame.takesIn_pushOperator _ op, by simp [tokenReport, Token.isStray]⟩
  | openParen => cases plain
  | closeParen => cases plain
  | openBracket | closeBracket | integer value =>
    cases h
    exact (Covers.refl m).warn _ span

end Machine

open Machine

variable [TileSource σ] {m m' m'' : Machine σ}

theorem Passage.covers (passage : Passage) (h : m.steps passage.lexemes = (.ok (), m')) :
    Covers m m' passage.level passage.report := by
  induction passage generalizing m m' with
  | nil =>
    cases h
    exact Covers.refl m
  | word lexeme plain rest ih =>
    obtain ⟨u, middle, hstep, h⟩ := Attempt.andThen_eq_ok h
    exact (covers_of_step plain hstep).trans (ih h)
  | group opened closed inner rest ihi ihr =>
    rw [lexemes, steps_append] at h
    obtain ⟨u, read, hread, h⟩ := Attempt.andThen_eq_ok h
    obtain ⟨u, left, hclose, h⟩ := Attempt.andThen_eq_ok h
    have hinner : Covers { m with frames := m.frames.enter opened } read inner.level
        inner.report := ihi hread
    exact (hinner.close inner.operands_eq_zero_iff hclose).trans (ihr h)

theorem OpenPassage.covers (passage : OpenPassage) {stop : Span}
    (h : m.steps passage.lexemes = (.ok (), m'))
    (hclose : m'.closeOpen stop passage.depth = (.ok (), m'')) :
    Covers m m'' passage.level passage.report := by
  induction passage generalizing m m' m'' with
  | closed passage =>
    cases hclose
    exact passage.covers h
  | unclosed before opened inner ih =>
    rw [lexemes, steps_append] at h
    obtain ⟨u, middle, hbefore, h⟩ := Attempt.andThen_eq_ok h
    rw [depth, closeOpen_succ] at hclose
    obtain ⟨u, left, hinside, hclose⟩ := Attempt.andThen_eq_ok hclose
    have hinner : Covers { middle with frames := middle.frames.enter opened } left inner.level
        inner.report := ih h hinside
    have hopened : left.frames.head.openedAt = opened := hinner.head.openedAt
    have hgroup := (hinner.warn .unclosedOpen opened).close inner.operands_eq_zero_iff
      (hopened ▸ hclose)
    rw [List.append_assoc] at hgroup
    exact (before.covers hbefore).trans hgroup

theorem Bracketing.covers (b : Bracketing) {stop : Span} (hbelow : m.frames.below = [])
    (h : m.steps b.lexemes = (.ok (), m')) (hclose : m'.closeOpen stop b.depth = (.ok (), m'')) :
    Covers m m'' b.level b.report := by
  induction b generalizing m with
  | last passage => exact passage.covers h hclose
  | surplus before closed rest ih =>
    rw [lexemes, steps_append] at h
    obtain ⟨u, middle, hbefore, h⟩ := Attempt.andThen_eq_ok h
    obtain ⟨u, after, hstep, h⟩ := Attempt.andThen_eq_ok h
    have hcovers := before.covers hbefore
    have hsurplus := covers_of_closeGroup_of_below_eq_nil (hcovers.below.trans hbelow) hstep
    have hnone : after.frames.below = [] :=
      hsurplus.below.trans (hcovers.below.trans hbelow)
    have hafter := hsurplus.trans (ih hnone h hclose)
    rw [Level.empty_append] at hafter
    exact hcovers.trans hafter

omit [TileSource σ] in
theorem Machine.Covers.result {level : Level} {report : List Diagnostic} {tile : Tile} {stop : Nat}
    (h : Covers m m' level report) (hempty : m.frames = {})
    (hdrained : m'.frames.head.operators = [])
    (hresult : m'.result (.point stop) = (.ok tile, m'')) :
    m''.diagnostics.Perm (m.diagnostics ++ (report ++
      if level.excess = 0 then [] else [⟨.leftover level.excess, .point stop⟩])) := by
  obtain ⟨whole, rest, hoperands, -, -, hm⟩ := result_eq_ok hresult
  have hcount := h.head.length_of_drained (by rw [hempty]) (by rw [hempty]) hdrained
  have hexcess : level.excess = rest.length := by
    rw [Level.excess_eq_of_add_eq hcount, hoperands]
    rfl
  rw [hm, hexcess, ← List.append_assoc]
  simp only [List.length_eq_zero_iff]
  exact h.diagnostics.append_right _

/-- A run that succeeds says what there is to say about its text, and nothing else. Every text has
a bracketing, and what there is to say can be read off any of them. -/
theorem Machine.run_diagnostics {source : σ} {namespaces : NamespaceCounter}
    {bounds : BoundTracker} {lexemes : List Lexeme} {stop : Nat} {tile : Tile}
    (h : ({ source, namespaces, bounds } : Machine σ).run lexemes stop = (.ok tile, m)) :
    (∃ b : Bracketing, b.lexemes = lexemes) ∧
      ∀ b : Bracketing, b.lexemes = lexemes → m.diagnostics.Perm (b.diagnostics stop) := by
  refine ⟨exists_bracketing lexemes, ?_⟩
  rintro b rfl
  obtain ⟨u, read, hsteps, h⟩ := Attempt.andThen_eq_ok h
  obtain ⟨u, closed, hclose, h⟩ := Attempt.andThen_eq_ok h
  obtain ⟨u, drained, hdrain, hresult⟩ := Attempt.andThen_eq_ok h
  have hdepth : read.frames.below.length = b.depth := by
    rw [length_below_of_steps hsteps]
    exact b.openGroups_lexemes
  rw [hdepth] at hclose
  obtain ⟨hcovers, hdrained⟩ := (b.covers rfl hsteps hclose).drain hdrain
  exact hcovers.result rfl hdrained hresult

end machine

/-- `gate ) ( ] () room room`, with an end of the text at 23. -/
def rubble : Bracketing :=
  .surplus (.word ⟨.tile "gate" .accepting 0, ⟨0, 4⟩⟩ rfl .nil) ⟨5, 6⟩
    (.last (.unclosed .nil ⟨7, 8⟩ (.closed
      (.word ⟨.closeBracket, ⟨9, 10⟩⟩ rfl (.group ⟨11, 12⟩ ⟨12, 13⟩ .nil
        (.word ⟨.tile "room" .accepting 0, ⟨14, 18⟩⟩ rfl
          (.word ⟨.tile "room" .accepting 0, ⟨19, 23⟩⟩ rfl .nil)))))))

def rubbleRun : Attempt (Machine MemorySource) Tile :=
  ({ source := hallSource } : Machine MemorySource).run rubble.lexemes 23

theorem Machine.run_diagnostics_rubble : rubbleRun.2.diagnostics.Perm
    [⟨.unbalancedClose, ⟨5, 6⟩⟩, ⟨.strayToken .closeBracket, ⟨9, 10⟩⟩, ⟨.emptyGroup, ⟨11, 12⟩⟩,
      ⟨.unclosedOpen, ⟨7, 8⟩⟩, ⟨.leftoverInGroup 1, ⟨7, 8⟩⟩, ⟨.leftover 1, .point 23⟩] := by
  have hvalue : rubbleRun.1.toOption.isSome = true := by decide +kernel
  obtain ⟨tile, htile⟩ := Option.isSome_iff_exists.mp hvalue
  have hrun : rubbleRun = (.ok tile, rubbleRun.2) := Attempt.eq_ok_of_toOption htile
  exact (run_diagnostics hrun).2 rubble rfl

end Tilework
