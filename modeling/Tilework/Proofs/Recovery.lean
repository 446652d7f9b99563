import Tilework.Proofs.Conservation
import Tilework.Proofs.Forest
import Tilework.Proofs.Unseen

/-!
# Recovery

A text is mended by leaving out the tokens without a meaning and by closing the groups that it
leaves open. A mended text runs as the text itself does: it fails with the same fault, or gives the
same tile, and all that differs is that there is nothing to say about what was mended. A group that
the end of the text closes is closed as by a parenthesis.
-/

namespace Tilework

/-- The number of groups that are open behind a token, given those that are open before it. -/
def Token.depth : Token → Nat → Nat
  | openParen, depth => depth + 1
  | closeParen, depth => depth - 1
  | tile _ _ _, depth | operator _, depth => depth
  | openBracket, depth | closeBracket, depth | integer _, depth => depth

/-- The number of groups that a text leaves open. A closing parenthesis closes the latest group, and
where none is open it closes none. -/
def openGroups (depth : Nat) (lexemes : List Lexeme) : Nat :=
  lexemes.foldl (fun depth lexeme => lexeme.token.depth depth) depth

/-- A text without its stray tokens, with parentheses at the given places behind it. -/
def mended (lexemes : List Lexeme) (closes : List Span) : List Lexeme :=
  lexemes.filter (! ·.token.isStray) ++ closes.map (⟨.closeParen, ·⟩)

/-- Take away the diagnostics that a mended text does not give. -/
def Edit.mend : Edit where
  tracker := id
  add_tracker := by
    intro t label
    cases hadd : t.add label <;> simp [Except.map, hadd]
  keep := fun warning => decide (warning.code ∉ mendedCodes)
  keep_of_code := fun _ h => decide_eq_true h

namespace Machine

section close

variable {σ : Type}

theorem closeGroup_congr {m : Machine σ} (h : m.frames.below ≠ []) (span span' : Span) :
    m.closeGroup span = m.closeGroup span' := by
  obtain ⟨frame, below, hbelow⟩ := List.exists_cons_of_ne_nil h
  have hframes : m.drain.2.frames.below = frame :: below := hbelow
  rw [closeGroup, closeGroup]
  rcases hdrain : m.drain with ⟨fault | u, drained⟩
  · rfl
  · have hbelow : drained.frames.below = frame :: below := by
      rw [hdrain] at hframes
      exact hframes
    simp only [Attempt.andThen_ok, FrameStack.leave?, hbelow]

end close

variable {σ : Type} [TileSource σ] {m m' : Machine σ}

theorem length_below_of_step {lexeme : Lexeme} (h : m.step lexeme = (.ok (), m')) :
    m'.frames.below.length = lexeme.token.depth m.frames.below.length := by
  rcases lexeme with ⟨token, span⟩
  cases token with
  | tile name cls param =>
    obtain ⟨tile, source, -, rfl⟩ := step_tile_eq_ok ⟨name, cls, param⟩ h
    rfl
  | closeParen =>
    rw [below_of_closeGroup h, List.length_tail]
    rfl
  | operator op | openParen | openBracket | closeBracket | integer value =>
    cases h
    rfl

theorem length_below_of_steps {lexemes : List Lexeme} (h : m.steps lexemes = (.ok (), m')) :
    m'.frames.below.length = openGroups m.frames.below.length lexemes := by
  induction lexemes generalizing m with
  | nil =>
    cases h
    rfl
  | cons lexeme lexemes ih =>
    obtain ⟨u, middle, hstep, h⟩ := Attempt.andThen_eq_ok h
    rw [ih h, length_below_of_step hstep]
    rfl

open Edit

/-- Leaving out a stray token takes away its warning and nothing else. -/
theorem steps_filter (lexemes : List Lexeme) (m : Machine σ) :
    (mend.machine m).steps (lexemes.filter (! ·.token.isStray)) =
      Prod.map id mend.machine (m.steps lexemes) := by
  induction lexemes generalizing m with
  | nil => rfl
  | cons lexeme lexemes ih =>
    by_cases hstray : lexeme.token.isStray = true
    · have hskip : ∃ warned, m.step lexeme = (.ok (), warned) ∧
          mend.machine warned = mend.machine m := by
        rcases lexeme with ⟨token, span⟩
        cases token with
        | openBracket | closeBracket | integer value =>
          exact ⟨_, rfl, mend.machine_warn_of_not_keep m rfl span⟩
        | tile name cls param => cases hstray
        | operator op => cases hstray
        | openParen => cases hstray
        | closeParen => cases hstray
      obtain ⟨warned, hstep, hwarned⟩ := hskip
      rw [List.filter_cons_of_neg (by simp [hstray]), steps, hstep, Attempt.andThen_ok, ← hwarned]
      exact ih warned
    · rw [List.filter_cons_of_pos (by simpa using hstray), steps, steps]
      exact Attempt.andThen_map (mend.step_machine m lexeme fun h => absurd h hstray)
        fun u m' _ => ih m'

/-- The end of a text closes groups as parentheses do, apart from saying so. -/
theorem steps_closes (stop : Span) (closes : List Span) (m : Machine σ)
    (h : closes.length ≤ m.frames.below.length) :
    (mend.machine m).steps (closes.map (⟨.closeParen, ·⟩)) =
      Prod.map id mend.machine (m.closeOpen stop closes.length) := by
  induction closes generalizing m with
  | nil => rfl
  | cons span closes ih =>
    rw [List.length_cons] at h
    have hbelow : m.frames.below ≠ [] := by
      intro hnil
      simp [hnil] at h
    have hwarned : mend.machine (m.warn .unclosedOpen m.frames.head.openedAt) = mend.machine m :=
      mend.machine_warn_of_not_keep m rfl _
    have hgroup : (mend.machine m).step ⟨.closeParen, span⟩ =
        Prod.map id mend.machine
          ((m.warn .unclosedOpen m.frames.head.openedAt).closeGroup stop) := by
      rw [← mend.closeGroup_machine, hwarned]
      exact closeGroup_congr (m := mend.machine m) hbelow span stop
    refine Attempt.andThen_map hgroup fun u closed hclosed => ih closed ?_
    rw [below_of_closeGroup hclosed, List.length_tail]
    exact Nat.le_sub_of_add_le h

theorem run_mend {lexemes : List Lexeme} {closes : List Span}
    (h : closes.length = openGroups m.frames.below.length lexemes) (stop : Nat) :
    (mend.machine m).run (mended lexemes closes) stop =
      Prod.map id mend.machine (m.run lexemes stop) := by
  rw [run, mended, steps_append, Attempt.andThen_assoc, run]
  refine Attempt.andThen_map (steps_filter lexemes m) fun u read hread => ?_
  have hlength : closes.length = read.frames.below.length := by
    rw [h, length_below_of_steps hread]
  rw [finish, ← hlength]
  have hcloses := steps_closes (.point stop) closes read (Nat.le_of_eq hlength)
  refine Attempt.andThen_map hcloses fun u closed hclosed => ?_
  have hnone : (mend.machine closed).frames.below = [] := by
    have hbelow : closed.frames.below = [] := by
      rw [below_of_closeOpen hclosed, hlength, List.drop_length]
    exact hbelow
  rw [finish_of_below_eq_nil hnone]
  refine Attempt.andThen_map (mend.drain_machine closed) fun u drained _ => ?_
  exact mend.result_machine drained (.point stop)

/-- A text and its mended text have the same outcome, and leave the same source, numbers and bounds.
The diagnostics of the mended text are those of the text, in their order, without the ones about
tokens that have no meaning and groups that are never closed. -/
theorem run_recovers (source : σ) (namespaces : NamespaceCounter) (bounds : BoundTracker)
    {lexemes : List Lexeme} {closes : List Span} (h : closes.length = openGroups 0 lexemes)
    (stop : Nat) :
    let start : Machine σ := { source, namespaces, bounds }
    let plain := start.run lexemes stop
    let tidy := start.run (mended lexemes closes) stop
    tidy.1 = plain.1 ∧ tidy.2.bounds = plain.2.bounds ∧
      tidy.2.namespaces = plain.2.namespaces ∧ tidy.2.source = plain.2.source ∧
      tidy.2.diagnostics = plain.2.diagnostics.filter (·.warning.code ∉ ["W0001", "W0003"]) := by
  intro start plain tidy
  have hmend : tidy = Prod.map id mend.machine plain := run_mend (m := start) h stop
  rw [hmend]
  exact ⟨rfl, rfl, rfl, rfl, rfl⟩

def mendedHallRun : Attempt (Machine MemorySource) Tile :=
  ({ source := hallSource, namespaces := ⟨7⟩ } : Machine MemorySource).run
    (mended hallLexemes [⟨21, 22⟩]) 21

theorem run_recovers_hall :
    [(⟨21, 22⟩ : Span)].length = openGroups 0 hallLexemes ∧
      mendedHallRun.1 = .ok hallTile ∧ mendedHallRun.2.diagnostics = [] := by
  have hcloses : [(⟨21, 22⟩ : Span)].length = openGroups 0 hallLexemes := rfl
  obtain ⟨hresult, -, -, -, hdiagnostics⟩ := run_recovers hallSource ⟨7⟩ {} hcloses 21
  have hplain : hallRun.1 = .ok hallTile := congrArg Prod.fst hallRun_eq
  refine ⟨hcloses, hresult.trans hplain, hdiagnostics.trans ?_⟩
  change hallRun.2.diagnostics.filter _ = []
  simp [diagnostics_hallRun, Warning.code]

end Machine

end Tilework
