import Tilework.Proofs.Conservation

/-!
# What a failing step keeps

The frames of a machine are numbered from that of the whole expression on, after every step, also
after one that fails. A step fails at a reference or at a closing parenthesis only. A reference that
fails has asked the source and done nothing else. A closing parenthesis fails while the innermost
frame is drained, maybe after some of its operators, and all that it has changed is in that frame
and in the bounds that were fed.
-/

namespace Tilework

theorem Frame.level_applyAll (ops : List Operator) (frame : Frame) (tracker : BoundTracker) :
    (applyAll ops frame tracker).2.1.level = frame.level := by
  induction ops generalizing frame tracker with
  | nil => rfl
  | cons op ops ih =>
    rw [applyAll]
    split
    · rfl
    · rcases op.apply (frame.operands.take op.arity).reverse tracker with ⟨fault | tile, fed⟩
      · rfl
      · exact ih _ fed

namespace FrameStack

def frames (stack : FrameStack) : List Frame := stack.below.reverse ++ [stack.head]

/-- Every frame is at the level at which it stands. Levels have 32 bits. -/
def Numbered (stack : FrameStack) : Prop :=
  stack.frames.map (·.level) = (List.range stack.depth).map .ofNat

variable {stack : FrameStack}

theorem numbered_iff : stack.Numbered ↔
    stack.below.reverse.map (·.level) = (List.range stack.below.length).map .ofNat ∧
      stack.head.level = .ofNat stack.below.length := by
  rw [Numbered, frames, depth, List.range_succ, List.map_append, List.map_append,
    List.map_singleton, List.map_singleton]
  constructor
  · intro h
    obtain ⟨hbelow, hhead⟩ := List.append_inj' h rfl
    exact ⟨hbelow, List.head_eq_of_cons_eq hhead⟩
  · rintro ⟨hbelow, hhead⟩
    rw [hbelow, hhead]

theorem Numbered.mapHead (h : stack.Numbered) {f : Frame → Frame}
    (hlevel : (f stack.head).level = stack.head.level) : (stack.mapHead f).Numbered := by
  rw [numbered_iff] at h ⊢
  exact ⟨h.1, hlevel.trans h.2⟩

theorem Numbered.enter (h : stack.Numbered) (span : Span) : (stack.enter span).Numbered := by
  have hbelow : (stack.head :: stack.below).reverse.map (·.level) =
      (List.range (stack.below.length + 1)).map .ofNat := by
    rw [List.reverse_cons]
    exact h
  refine numbered_iff.mpr ⟨hbelow, ?_⟩
  have hlevel : (stack.enter span).head.level = stack.head.level + 1 := rfl
  rw [hlevel, (numbered_iff.mp h).2]
  exact (UInt32.ofNat_add _ 1).symm

theorem Numbered.leave {group : Frame} {rest : FrameStack} (h : stack.Numbered)
    (hleave : stack.leave? = some (group, rest)) : rest.Numbered := by
  obtain ⟨-, hbelow⟩ := leave?_eq_some hleave
  have hlevels := (numbered_iff.mp h).1
  rw [hbelow, List.reverse_cons] at hlevels
  exact hlevels

end FrameStack

namespace Machine

section close

variable {σ : Type} {m left : Machine σ}

theorem numbered_closeGroup (h : m.frames.Numbered) (span : Span) :
    (m.closeGroup span).2.frames.Numbered := by
  have hdrain : m.drain.2.frames.Numbered := h.mapHead (Frame.level_applyAll _ _ _)
  refine Attempt.andThen_preserves (P := fun m : Machine σ => m.frames.Numbered) hdrain ?_
  intro u drained hdrained
  cases hleave : drained.frames.leave? with
  | none => exact hdrained
  | some parts =>
    simp only [foldl_warn]
    exact (hdrained.leave hleave).mapHead rfl

theorem closeGroup_eq_error {span : Span} {fault : ComposeFault}
    (h : m.closeGroup span = (.error fault, left)) :
    left = { m with frames := ⟨left.frames.head, m.frames.below⟩, bounds := left.bounds } := by
  rcases Attempt.andThen_eq_error h with hdrain | ⟨u, drained, -, h⟩
  · simp only [drain, Prod.mk.injEq] at hdrain
    obtain ⟨-, rfl⟩ := hdrain
    rfl
  · split at h <;> cases h

end close

variable {σ : Type} [TileSource σ] {m left : Machine σ} {lexeme : Lexeme}

theorem frames_load (m : Machine σ) (name : String) (cls : TileClass) (param : Nat) :
    (m.load name cls param).2.frames = m.frames := by
  rw [m.load_eq ⟨name, cls, param⟩]
  rcases (⟨name, cls, param⟩ : Reference).serve m.source with ⟨fault | tile, source⟩ <;> rfl

theorem load_eq_error (reference : Reference) {fault : ComposeFault}
    (h : m.load reference.name reference.cls reference.param = (.error fault, left)) :
    left = { m with source := left.source } := by
  rw [load_eq] at h
  split at h
  · cases h
    rfl
  · cases h

theorem numbered_step (h : m.frames.Numbered) (lexeme : Lexeme) :
    (m.step lexeme).2.frames.Numbered := by
  rcases lexeme with ⟨token, span⟩
  cases token with
  | tile name cls param =>
    have hload : (m.load name cls param).2.frames.Numbered := by rwa [frames_load]
    exact Attempt.andThen_preserves (P := fun m : Machine σ => m.frames.Numbered) hload
      fun tile loaded hloaded => hloaded.mapHead rfl
  | operator op => exact h.mapHead rfl
  | openParen => exact h.enter span
  | closeParen => exact numbered_closeGroup h span
  | openBracket | closeBracket | integer value => exact h

theorem step_eq_error {fault : ComposeFault} (h : m.step lexeme = (.error fault, left)) :
    lexeme.token.reference?.isSome ∧ left = { m with source := left.source } ∨
      lexeme.token = .closeParen ∧
        left = { m with
          frames := ⟨left.frames.head, m.frames.below⟩
          bounds := left.bounds } := by
  rcases lexeme with ⟨token, span⟩
  cases token with
  | tile name cls param =>
    rcases Attempt.andThen_eq_error h with hload | ⟨tile, loaded, -, h⟩
    · exact Or.inl ⟨rfl, load_eq_error ⟨name, cls, param⟩ hload⟩
    · cases h
  | closeParen => exact Or.inr ⟨rfl, closeGroup_eq_error h⟩
  | operator op | openParen | openBracket | closeBracket | integer value => cases h

/-- The machines that steps make of a new one, also those in which a step has failed. -/
inductive Reachable : Machine σ → Prop
  | start (source : σ) (namespaces : NamespaceCounter) (bounds : BoundTracker) :
    Reachable { source, namespaces, bounds }
  | step {m : Machine σ} (h : Reachable m) (lexeme : Lexeme) : Reachable (m.step lexeme).2

theorem Reachable.numbered (h : m.Reachable) : m.frames.Numbered := by
  induction h with
  | start source namespaces bounds => rfl
  | step h lexeme ih => exact numbered_step ih lexeme

theorem Reachable.level (h : m.Reachable) :
    m.frames.head.level = .ofNat m.frames.below.length :=
  (FrameStack.numbered_iff.mp h.numbered).2

theorem Reachable.steps (h : m.Reachable) (lexemes : List Lexeme) :
    (m.steps lexemes).2.Reachable := by
  induction lexemes generalizing m with
  | nil => exact h
  | cons lexeme lexemes ih =>
    exact Attempt.andThen_preserves (P := Reachable) (h.step lexeme) fun u stepped hstepped =>
      ih hstepped

/-- The frames of a machine are numbered by depth. A step that fails leaves alone the frames below
the innermost one, the diagnostics and the numbers that instances get. At a reference it leaves
alone all frames and the bounds, and at a closing parenthesis the source. No other token fails. -/
theorem step_contained (h : m.Reachable) (lexeme : Lexeme) :
    m.frames.Numbered ∧
      (lexeme.token.reference? = none → lexeme.token ≠ .closeParen →
        (m.step lexeme).1 = .ok ()) ∧
      ∀ fault left, m.step lexeme = (.error fault, left) →
        left.frames.depth = m.frames.depth ∧ left.frames.below = m.frames.below ∧
          left.frames.head.level = m.frames.head.level ∧
          left.diagnostics = m.diagnostics ∧ left.namespaces = m.namespaces ∧
          (lexeme.token.reference?.isSome →
            left.frames.head = m.frames.head ∧ left.bounds = m.bounds) ∧
          (lexeme.token = .closeParen → left.source = m.source) := by
  refine ⟨h.numbered, ?_, ?_⟩
  · intro hreference hclose
    rcases hstep : m.step lexeme with ⟨fault | u, left⟩
    · rcases step_eq_error hstep with ⟨hsome, -⟩ | ⟨hparen, -⟩
      · rw [hreference] at hsome
        cases hsome
      · exact absurd hparen hclose
    · rfl
  · intro fault left hstep
    rcases step_eq_error hstep with ⟨hsome, hleft⟩ | ⟨hclose, hleft⟩
    · rw [hleft]
      refine ⟨rfl, rfl, rfl, rfl, rfl, fun _ => ⟨rfl, rfl⟩, fun hclose => ?_⟩
      rw [hclose] at hsome
      cases hsome
    · have hlevel : left.frames.head.level = m.frames.head.level := by
        have hreached : left.Reachable := by simpa [hstep] using h.step lexeme
        have hbelow : left.frames.below = m.frames.below := by rw [hleft]
        rw [hreached.level, h.level, hbelow]
      rw [hleft]
      refine ⟨rfl, rfl, hlevel, rfl, rfl, fun hsome => ?_, fun _ => rfl⟩
      rw [hclose] at hsome
      cases hsome

def hallGroup : Machine MemorySource :=
  (({ source := hallSource } : Machine MemorySource).steps
    [⟨.openParen, ⟨0, 1⟩⟩, ⟨.tile "gate" .accepting 0, ⟨1, 5⟩⟩, ⟨.operator .sizeMatched, ⟨6, 7⟩⟩,
      ⟨.tile "room" .accepting 0, ⟨8, 12⟩⟩, ⟨.operator .sizeMatched, ⟨13, 14⟩⟩]).2

/-- Closing the group fails at the operator that was read first, when the other one is applied. -/
theorem step_contained_hall :
    hallGroup.Reachable ∧ hallGroup.frames.depth = 2 ∧
      (∃ fault left, hallGroup.step ⟨.closeParen, ⟨14, 15⟩⟩ = (.error fault, left) ∧
        left.frames.below = hallGroup.frames.below ∧ left.namespaces = hallGroup.namespaces) ∧
      ∃ fault left, hallGroup.step ⟨.tile "cellar" .accepting 0, ⟨15, 21⟩⟩ = (.error fault, left) ∧
        left.frames.head = hallGroup.frames.head := by
  have hreached : hallGroup.Reachable := (Reachable.start hallSource {} {}).steps _
  refine ⟨hreached, by decide +kernel, ?_, ?_⟩
  · have hfails : (hallGroup.step ⟨.closeParen, ⟨14, 15⟩⟩).1.toOption = none := by decide +kernel
    obtain ⟨fault, hstep⟩ := Attempt.exists_eq_error_of_toOption hfails
    obtain ⟨-, hbelow, -, -, hnamespaces, -⟩ :=
      (step_contained hreached ⟨.closeParen, ⟨14, 15⟩⟩).2.2 fault _ hstep
    exact ⟨fault, _, hstep, hbelow, hnamespaces⟩
  · have hfails : (hallGroup.step ⟨.tile "cellar" .accepting 0, ⟨15, 21⟩⟩).1.toOption = none := by
      decide +kernel
    obtain ⟨fault, hstep⟩ := Attempt.exists_eq_error_of_toOption hfails
    obtain ⟨-, -, -, -, -, hsame, -⟩ :=
      (step_contained hreached ⟨.tile "cellar" .accepting 0, ⟨15, 21⟩⟩).2.2 fault _ hstep
    exact ⟨fault, _, hstep, (hsame rfl).1⟩

end Machine

end Tilework
