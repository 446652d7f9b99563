import Tilework.Proofs.Unseen

/-!
# Places are not read

A run writes the places of tokens into frames and diagnostics, and reads none of them again. Taking
all places away before a part of a run or behind it leaves the same machine. So two lists of the
same tokens at different places run alike, up to the places in what there is to say.
-/

namespace Tilework

def Lexeme.unplaced (lexeme : Lexeme) : Lexeme := { lexeme with span := .point 0 }

def Diagnostic.unplaced (d : Diagnostic) : Diagnostic := { d with span := .point 0 }

def Frame.unplaced (frame : Frame) : Frame := { frame with openedAt := .point 0 }

def FrameStack.unplaced (stack : FrameStack) : FrameStack where
  head := stack.head.unplaced
  below := stack.below.map Frame.unplaced

theorem FrameStack.leave?_unplaced (stack : FrameStack) :
    stack.unplaced.leave? = stack.leave?.map (Prod.map Frame.unplaced FrameStack.unplaced) := by
  rcases stack with ⟨head, _ | ⟨frame, below⟩⟩ <;> rfl

theorem Frame.applyAll_unplaced (ops : List Operator) (frame : Frame) (t : BoundTracker) :
    Frame.applyAll ops frame.unplaced t =
      Prod.map id (Prod.map Frame.unplaced id) (Frame.applyAll ops frame t) := by
  induction ops generalizing frame t with
  | nil => rfl
  | cons op ops ih =>
    rw [Frame.applyAll, Frame.applyAll]
    have hoperands : frame.unplaced.operands = frame.operands := rfl
    rw [hoperands]
    by_cases hfew : frame.operands.length < op.arity
    · rw [if_pos hfew, if_pos hfew]
      rfl
    · rw [if_neg hfew, if_neg hfew]
      let rest : Frame :=
        { frame with operators := ops, operands := frame.operands.drop op.arity }
      rcases op.apply (frame.operands.take op.arity).reverse t with ⟨fault | tile, t⟩
      · rfl
      · exact ih (rest.pushTile tile) t

namespace Machine

variable {σ : Type} (m : Machine σ)

def unplaced : Machine σ :=
  { m with
    frames := m.frames.unplaced
    diagnostics := m.diagnostics.map Diagnostic.unplaced }

variable {m} in
theorem eq_of_unplaced_eq {m' : Machine σ} (h : m'.unplaced = m.unplaced) :
    m'.source = m.source ∧ m'.namespaces = m.namespaces ∧ m'.bounds = m.bounds ∧
      m'.diagnostics.map (·.warning) = m.diagnostics.map (·.warning) := by
  simp only [unplaced, Machine.mk.injEq] at h
  obtain ⟨hsource, hnamespaces, hbounds, -, hdiagnostics⟩ := h
  refine ⟨hsource, hnamespaces, hbounds, ?_⟩
  simpa [Diagnostic.unplaced, Function.comp_def] using
    congrArg (List.map (·.warning)) hdiagnostics

theorem warn_unplaced (warning : Warning) (span : Span) :
    m.unplaced.warn warning (.point 0) = (m.warn warning span).unplaced := by
  simp [warn, unplaced, Diagnostic.unplaced]

theorem warnings_unplaced (group : Frame) :
    group.unplaced.warnings.foldl (·.warn · group.unplaced.openedAt) m.unplaced =
      (group.warnings.foldl (·.warn · group.openedAt) m).unplaced := by
  have hwarnings : group.unplaced.warnings = group.warnings := rfl
  rw [hwarnings, foldl_warn, foldl_warn]
  simp [unplaced, Diagnostic.unplaced, Frame.unplaced]

theorem drain_unplaced : m.unplaced.drain = Prod.map id unplaced m.drain := by
  have hhead : m.unplaced.frames.head = m.frames.head.unplaced := rfl
  simp only [drain, Frame.drain, hhead]
  have hops : m.frames.head.unplaced.operators = m.frames.head.operators := rfl
  have hbounds : m.unplaced.bounds = m.bounds := rfl
  rw [hops, hbounds, Frame.applyAll_unplaced]
  rfl

theorem closeGroup_unplaced (span : Span) :
    m.unplaced.closeGroup (.point 0) = Prod.map id unplaced (m.closeGroup span) := by
  refine Attempt.andThen_map m.drain_unplaced fun u drained _ => ?_
  have hleave : drained.unplaced.frames.leave? = _ := FrameStack.leave?_unplaced drained.frames
  rw [hleave]
  cases drained.frames.leave? with
  | none => exact congrArg (Prod.mk _) (drained.warn_unplaced .unbalancedClose span)
  | some left =>
    obtain ⟨group, frames⟩ := left
    exact congrArg (Prod.mk _)
      (warnings_unplaced { drained with frames := frames.mapHead (·.receive group) } group)

theorem closeOpen_unplaced (stop : Span) (n : Nat) :
    m.unplaced.closeOpen (.point 0) n = Prod.map id unplaced (m.closeOpen stop n) := by
  induction n generalizing m with
  | zero => rfl
  | succ n ih =>
    have hgroup := closeGroup_unplaced (m.warn .unclosedOpen m.frames.head.openedAt) stop
    rw [← m.warn_unplaced] at hgroup
    exact Attempt.andThen_map hgroup fun u closed _ => ih closed

theorem result_unplaced (stop : Span) :
    m.unplaced.result (.point 0) = Prod.map id unplaced (m.result stop) := by
  have hoperands : m.unplaced.frames.head.operands = m.frames.head.operands := rfl
  rw [result, result, hoperands]
  cases m.frames.head.operands with
  | nil => rfl
  | cons tile rest =>
    have hwarn : (if rest.isEmpty then m.unplaced
        else m.unplaced.warn (.leftover rest.length) (.point 0)) =
          (if rest.isEmpty then m else m.warn (.leftover rest.length) stop).unplaced := by
      rw [m.warn_unplaced _ stop]
      exact (apply_ite unplaced _ _ _).symm
    simp only [hwarn]
    rfl

theorem finish_unplaced (stop : Span) :
    m.unplaced.finish (.point 0) = Prod.map id unplaced (m.finish stop) := by
  have hlength : m.unplaced.frames.below.length = m.frames.below.length := List.length_map _
  rw [finish, finish, hlength]
  refine Attempt.andThen_map (m.closeOpen_unplaced stop _) fun u closed _ => ?_
  refine Attempt.andThen_map closed.drain_unplaced fun u drained _ => ?_
  exact drained.result_unplaced stop

variable [TileSource σ]

theorem load_unplaced (reference : Reference) :
    m.unplaced.load reference.name reference.cls reference.param =
      Prod.map id unplaced (m.load reference.name reference.cls reference.param) := by
  have hsource : m.unplaced.source = m.source := rfl
  rw [load_eq, load_eq, hsource]
  rcases reference.serve m.source with ⟨fault | tile, source⟩ <;> rfl

theorem step_unplaced (lexeme : Lexeme) :
    m.unplaced.step lexeme.unplaced = Prod.map id unplaced (m.step lexeme) := by
  rcases lexeme with ⟨token, span⟩
  cases token with
  | tile name cls param =>
    exact Attempt.andThen_map (m.load_unplaced ⟨name, cls, param⟩) fun tile loaded _ => rfl
  | operator op => rfl
  | openParen => rfl
  | closeParen => exact m.closeGroup_unplaced span
  | openBracket | closeBracket | integer value =>
    exact congrArg (Prod.mk _) (m.warn_unplaced (.strayToken _) span)

theorem steps_unplaced (lexemes : List Lexeme) :
    m.unplaced.steps (lexemes.map Lexeme.unplaced) = Prod.map id unplaced (m.steps lexemes) := by
  induction lexemes generalizing m with
  | nil => rfl
  | cons lexeme lexemes ih =>
    exact Attempt.andThen_map (m.step_unplaced lexeme) fun u stepped _ => ih stepped

theorem run_unplaced (lexemes : List Lexeme) (stop : Nat) :
    m.unplaced.run (lexemes.map Lexeme.unplaced) 0 = Prod.map id unplaced (m.run lexemes stop) :=
  Attempt.andThen_map (m.steps_unplaced lexemes) fun _ read _ => read.finish_unplaced (.point stop)

theorem run_congr {lexemes lexemes' : List Lexeme}
    (h : lexemes'.map (·.token) = lexemes.map (·.token)) (stop stop' : Nat) :
    Prod.map id unplaced (m.run lexemes' stop') = Prod.map id unplaced (m.run lexemes stop) := by
  have hplaces : ∀ lexemes : List Lexeme, lexemes.map Lexeme.unplaced =
      (lexemes.map (·.token)).map (⟨·, .point 0⟩) := by
    intro lexemes
    rw [List.map_map]
    rfl
  rw [← run_unplaced, ← run_unplaced, hplaces, hplaces, h]

end Machine

end Tilework
