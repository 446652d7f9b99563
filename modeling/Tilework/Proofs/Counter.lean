import Tilework.Proofs.Frame

/-!
# The counter of a run

A number is taken for every tile that passes its checks, and for nothing else. So the counter goes
on by the number of tiles that a run has loaded, wherever the run ends, and it never goes back.
-/

namespace Tilework

theorem Attempt.andThen_keeps {σ α β γ : Type} {f : σ → γ} {attempt : Attempt σ α}
    {next : α → σ → Attempt σ β} {c : γ} (h : f attempt.2 = c)
    (hnext : ∀ value state, f (next value state).2 = f state) :
    f (attempt.andThen next).2 = c := by
  exact andThen_preserves (P := fun state => f state = c) h fun value state hstate =>
    (hnext value state).trans hstate

namespace Machine

section close

variable {σ : Type} (m : Machine σ)

theorem namespaces_closeGroup (span : Span) : (m.closeGroup span).2.namespaces = m.namespaces := by
  refine Attempt.andThen_keeps rfl fun u drained => ?_
  cases drained.frames.leave? with
  | none => rfl
  | some left => simp [foldl_warn]

theorem namespaces_closeOpen (stop : Span) (n : Nat) :
    (m.closeOpen stop n).2.namespaces = m.namespaces := by
  induction n generalizing m with
  | zero => rfl
  | succ n ih =>
    have hgroup := (m.warn .unclosedOpen m.frames.head.openedAt).namespaces_closeGroup stop
    exact Attempt.andThen_keeps hgroup fun u closed => ih closed

theorem namespaces_result (stop : Span) : (m.result stop).2.namespaces = m.namespaces := by
  rw [result]
  split
  · rfl
  · split <;> rfl

theorem namespaces_finish (stop : Span) : (m.finish stop).2.namespaces = m.namespaces := by
  refine Attempt.andThen_keeps (m.namespaces_closeOpen stop _) fun u closed => ?_
  exact Attempt.andThen_keeps rfl fun u drained => drained.namespaces_result stop

end close

variable {σ : Type} [TileSource σ] (m : Machine σ)

/-- The tile that a token loads. A reference that the source does not serve, or whose tile does not
pass its checks, loads none. -/
def served? (lexeme : Lexeme) : Option Tile :=
  lexeme.token.reference?.bind fun reference => (reference.serve m.source).1.toOption

/-- The tiles that the tokens of a text load, up to the first token that fails. -/
def servedAll : List Lexeme → Machine σ → List Tile
  | [], _ => []
  | lexeme :: lexemes, m =>
    (m.served? lexeme).toList ++
      match m.step lexeme with
      | (.ok (), m) => servedAll lexemes m
      | (.error _, _) => []

theorem servedAll_singleton (lexeme : Lexeme) :
    servedAll [lexeme] m = (m.served? lexeme).toList := by
  rw [servedAll]
  rcases m.step lexeme with ⟨fault | u, stepped⟩ <;> exact List.append_nil _

theorem namespaces_step (lexeme : Lexeme) :
    (m.step lexeme).2.namespaces = m.namespaces.advance (m.served? lexeme).toList.length := by
  rcases lexeme with ⟨token, span⟩
  cases token with
  | tile name cls param =>
    have hserved : m.served? ⟨.tile name cls param, span⟩ =
        (Reference.serve ⟨name, cls, param⟩ m.source).1.toOption := rfl
    refine Attempt.andThen_keeps (f := fun m : Machine σ => m.namespaces) ?_ fun tile loaded => rfl
    rw [hserved, m.load_eq ⟨name, cls, param⟩]
    rcases Reference.serve ⟨name, cls, param⟩ m.source with ⟨fault | tile, source⟩
    · exact m.namespaces.advance_zero.symm
    · rfl
  | closeParen => exact (m.namespaces_closeGroup span).trans m.namespaces.advance_zero.symm
  | operator op | openParen | openBracket | closeBracket | integer value =>
    exact m.namespaces.advance_zero.symm

theorem namespaces_steps (lexemes : List Lexeme) :
    (m.steps lexemes).2.namespaces = m.namespaces.advance (m.servedAll lexemes).length := by
  induction lexemes generalizing m with
  | nil => exact m.namespaces.advance_zero.symm
  | cons lexeme lexemes ih =>
    have hstep := m.namespaces_step lexeme
    rw [steps, servedAll, List.length_append, ← NamespaceCounter.advance_advance, ← hstep]
    rcases m.step lexeme with ⟨fault | u, stepped⟩
    · exact stepped.namespaces.advance_zero.symm
    · exact ih stepped

/-- The counter goes on by the number of loaded tiles, whether the run fails or not. -/
theorem namespaces_run (lexemes : List Lexeme) (stop : Nat) :
    (m.run lexemes stop).2.namespaces = m.namespaces.advance (servedAll lexemes m).length := by
  refine Attempt.andThen_keeps (f := fun m : Machine σ => m.namespaces)
    (m.namespaces_steps lexemes) fun u read => ?_
  exact read.namespaces_finish (.point stop)

variable {m} {m' : Machine σ}

theorem serveAll_of_steps {lexemes : List Lexeme} (h : m.steps lexemes = (.ok (), m')) :
    serveAll (references lexemes) m.source = (.ok (m.servedAll lexemes), m'.source) := by
  induction lexemes generalizing m with
  | nil =>
    cases h
    rfl
  | cons lexeme lexemes ih =>
    rcases lexeme with ⟨token, span⟩
    obtain ⟨u, middle, hstep, h⟩ := Attempt.andThen_eq_ok h
    have hrest := ih h
    by_cases hreference : token.reference? = none
    · have hreferences : references (⟨token, span⟩ :: lexemes) = references lexemes :=
        List.filterMap_cons_none hreference
      rw [servedAll, hstep, served?, hreference, hreferences,
        ← (source_namespaces_of_step hreference hstep).1]
      exact hrest
    · cases token with
      | tile name cls param =>
        obtain ⟨tile, source, hserve, rfl⟩ := step_tile_eq_ok ⟨name, cls, param⟩ hstep
        have hserved : m.served? ⟨.tile name cls param, span⟩ = some tile :=
          congrArg (·.1.toOption) hserve
        have hreferences : references (⟨.tile name cls param, span⟩ :: lexemes) =
            ⟨name, cls, param⟩ :: references lexemes := rfl
        rw [servedAll, hstep, hserved, hreferences, serveAll, hserve, Attempt.andThen_ok, hrest]
        rfl
      | operator op | openParen | closeParen | openBracket | closeBracket | integer value =>
        exact absurd rfl hreference

end Machine

end Tilework
