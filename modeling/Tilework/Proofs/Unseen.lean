import Tilework.Proofs.Frame

/-!
# What a run does not see

A run reads neither the bounds that are stored by name nor the diagnostics that it has written. An
edit changes these two and nothing else. Making an edit before a part of a run or behind it leaves
the same machine, whether the part succeeds or fails; so a run keeps what is stored, and does not
depend on it.
-/

namespace Tilework

theorem Attempt.andThen_map {σ τ α β : Type} {f : σ → τ} {attempt : Attempt σ α}
    {attempt' : Attempt τ α} {next : α → σ → Attempt σ β} {next' : α → τ → Attempt τ β}
    (h : attempt' = Prod.map id f attempt)
    (hnext : ∀ value state, attempt = (.ok value, state) →
      next' value (f state) = Prod.map id f (next value state)) :
    attempt'.andThen next' = Prod.map id f (attempt.andThen next) := by
  subst h
  rcases attempt with ⟨fault | value, state⟩
  · rfl
  · exact hnext value state rfl

/-- Brackets and integers that belong to no reference. -/
def Token.isStray : Token → Bool
  | openBracket | closeBracket | integer _ => true
  | tile _ _ _ | operator _ | openParen | closeParen => false

/-- The codes of the warnings that a mended text does not give: those of tokens without a meaning
and of groups that are never closed. -/
def mendedCodes : List String := ["W0001", "W0003"]

/-- A change of what a tracker stores, and a choice of the diagnostics that are kept. -/
structure Edit where
  tracker : BoundTracker → BoundTracker
  add_tracker : ∀ t label, (tracker t).add label = (t.add label).map tracker
  keep : Warning → Bool
  keep_of_code : ∀ warning, warning.code ∉ mendedCodes → keep warning = true

namespace Edit

variable {σ : Type} (e : Edit)

def machine (m : Machine σ) : Machine σ :=
  { m with
    bounds := e.tracker m.bounds
    diagnostics := m.diagnostics.filter (e.keep ·.warning) }

/-- Put other bounds by name in place of the stored ones. -/
def restore (stored : Table (List Bound)) : Edit where
  tracker := fun t => { t with stored }
  add_tracker := by
    intro t label
    cases hread : Bound.readLabel label <;> simp [BoundTracker.add, hread, Except.map]
  keep := fun _ => true
  keep_of_code := fun _ _ => rfl

theorem addAll_tracker (labels : List String) (t : BoundTracker) :
    (e.tracker t).addAll labels = Prod.map id e.tracker (t.addAll labels) := by
  induction labels generalizing t with
  | nil => rfl
  | cons label labels ih =>
    rw [BoundTracker.addAll, BoundTracker.addAll, e.add_tracker]
    cases t.add label with
    | error fault => rfl
    | ok t => exact ih t

theorem apply_tracker (op : Operator) (tiles : List Tile) (t : BoundTracker) :
    op.apply tiles (e.tracker t) = Prod.map id e.tracker (op.apply tiles t) := by
  rw [Operator.apply, Operator.apply]
  cases op.joints? tiles with
  | none => rfl
  | some planned =>
    cases planned with
    | error detail => rfl
    | ok joints => exact Attempt.andThen_map (e.addAll_tracker _ t) fun u t _ => rfl

theorem applyAll_tracker (ops : List Operator) (frame : Frame) (t : BoundTracker) :
    Frame.applyAll ops frame (e.tracker t) =
      Prod.map id (Prod.map id e.tracker) (Frame.applyAll ops frame t) := by
  induction ops generalizing frame t with
  | nil => rfl
  | cons op ops ih =>
    rw [Frame.applyAll, Frame.applyAll]
    by_cases hfew : frame.operands.length < op.arity
    · rw [if_pos hfew, if_pos hfew]
      rfl
    · rw [if_neg hfew, if_neg hfew, e.apply_tracker]
      rcases op.apply (frame.operands.take op.arity).reverse t with ⟨fault | tile, t⟩
      · rfl
      · exact ih _ t

variable (m : Machine σ)

theorem warn_machine {warning : Warning} (h : e.keep warning = true) (span : Span) :
    (e.machine m).warn warning span = e.machine (m.warn warning span) := by
  simp [machine, Machine.warn, h]

theorem machine_warn_of_not_keep {warning : Warning} (h : e.keep warning = false) (span : Span) :
    e.machine (m.warn warning span) = e.machine m := by
  simp [machine, Machine.warn, h]

theorem keep_warnings (group : Frame) : ∀ warning ∈ group.warnings, e.keep warning = true := by
  intro warning hwarning
  apply e.keep_of_code
  rw [Frame.warnings] at hwarning
  split at hwarning
  · obtain rfl := List.mem_singleton.mp hwarning
    simp [Warning.code, mendedCodes]
  · cases hwarning
  · obtain rfl := List.mem_singleton.mp hwarning
    simp [Warning.code, mendedCodes]

theorem warnings_machine (group : Frame) :
    group.warnings.foldl (·.warn · group.openedAt) (e.machine m) =
      e.machine (group.warnings.foldl (·.warn · group.openedAt) m) := by
  have hkeep : ∀ d ∈ group.warnings.map (⟨·, group.openedAt⟩ : Warning → Diagnostic),
      e.keep d.warning = true := by
    intro d hd
    obtain ⟨warning, hwarning, rfl⟩ := List.mem_map.mp hd
    exact e.keep_warnings group warning hwarning
  simp [Machine.foldl_warn, machine, List.filter_append, List.filter_eq_self.mpr hkeep]

theorem drain_machine : (e.machine m).drain = Prod.map id e.machine m.drain := by
  simp only [Machine.drain, Frame.drain, machine, e.applyAll_tracker]
  rfl

theorem closeGroup_machine (span : Span) :
    (e.machine m).closeGroup span = Prod.map id e.machine (m.closeGroup span) := by
  refine Attempt.andThen_map (e.drain_machine m) fun u drained _ => ?_
  have hframes : (e.machine drained).frames = drained.frames := rfl
  rw [hframes]
  cases drained.frames.leave? with
  | none =>
    have hkeep : e.keep .unbalancedClose = true :=
      e.keep_of_code _ (by simp [Warning.code, mendedCodes])
    exact congrArg (Prod.mk _) (e.warn_machine drained hkeep span)
  | some left =>
    obtain ⟨group, frames⟩ := left
    exact congrArg (Prod.mk _)
      (e.warnings_machine { drained with frames := frames.mapHead (·.receive group) } group)

theorem result_machine (stop : Span) :
    (e.machine m).result stop = Prod.map id e.machine (m.result stop) := by
  have hframes : (e.machine m).frames = m.frames := rfl
  rw [Machine.result, Machine.result, hframes]
  cases m.frames.head.operands with
  | nil => rfl
  | cons tile rest =>
    have hkeep : e.keep (.leftover rest.length) = true :=
      e.keep_of_code _ (by simp [Warning.code, mendedCodes])
    have hwarn : (if rest.isEmpty then e.machine m
        else (e.machine m).warn (.leftover rest.length) stop) =
          e.machine (if rest.isEmpty then m else m.warn (.leftover rest.length) stop) := by
      rw [e.warn_machine m hkeep]
      exact (apply_ite e.machine _ _ _).symm
    simp only [hwarn]
    generalize (if rest.isEmpty then m else m.warn (.leftover rest.length) stop) = warned
    have hbounds : (e.machine warned).bounds = e.tracker warned.bounds := rfl
    rw [hbounds, e.addAll_tracker]
    rfl

variable [TileSource σ]

theorem load_machine (reference : Reference) :
    (e.machine m).load reference.name reference.cls reference.param =
      Prod.map id e.machine (m.load reference.name reference.cls reference.param) := by
  have hsource : (e.machine m).source = m.source := rfl
  rw [Machine.load_eq, Machine.load_eq, hsource]
  rcases reference.serve m.source with ⟨fault | tile, source⟩ <;> rfl

theorem step_machine (lexeme : Lexeme)
    (h : lexeme.token.isStray = true → e.keep (.strayToken lexeme.token) = true) :
    (e.machine m).step lexeme = Prod.map id e.machine (m.step lexeme) := by
  rcases lexeme with ⟨token, span⟩
  cases token with
  | tile name cls param =>
    exact Attempt.andThen_map (e.load_machine m ⟨name, cls, param⟩) fun tile loaded _ => rfl
  | operator op => rfl
  | openParen => rfl
  | closeParen => exact e.closeGroup_machine m span
  | openBracket | closeBracket | integer value =>
    exact congrArg (Prod.mk _) (e.warn_machine m (h rfl) span)

theorem steps_machine (h : ∀ warning, e.keep warning = true) (lexemes : List Lexeme) :
    (e.machine m).steps lexemes = Prod.map id e.machine (m.steps lexemes) := by
  induction lexemes generalizing m with
  | nil => rfl
  | cons lexeme lexemes ih =>
    exact Attempt.andThen_map (e.step_machine m lexeme fun _ => h _) fun u m _ => ih m

omit [TileSource σ] in
theorem closeOpen_machine (h : ∀ warning, e.keep warning = true) (stop : Span) (n : Nat) :
    (e.machine m).closeOpen stop n = Prod.map id e.machine (m.closeOpen stop n) := by
  induction n generalizing m with
  | zero => rfl
  | succ n ih =>
    have hgroup := e.closeGroup_machine (m.warn .unclosedOpen m.frames.head.openedAt) stop
    rw [← e.warn_machine m (h _)] at hgroup
    exact Attempt.andThen_map hgroup fun u m _ => ih m

theorem run_machine (h : ∀ warning, e.keep warning = true) (lexemes : List Lexeme) (stop : Nat) :
    (e.machine m).run lexemes stop = Prod.map id e.machine (m.run lexemes stop) := by
  refine Attempt.andThen_map (e.steps_machine m h lexemes) fun u read _ => ?_
  refine Attempt.andThen_map (e.closeOpen_machine read h (.point stop) _) fun u closed _ => ?_
  refine Attempt.andThen_map (e.drain_machine closed) fun u drained _ => ?_
  exact e.result_machine drained (.point stop)

end Edit

end Tilework
