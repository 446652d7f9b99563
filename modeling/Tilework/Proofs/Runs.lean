import Tilework.Proofs.Complaint
import Tilework.Proofs.Composite

/-!
# The runs of a call

The named expressions of a call are composed in one session, one after another. The call goes on up
to the first run that fails. If none does, those with a diagnostic or with skipped input may be
denied. The log is made of plain events, but for the one that tells of the failure.
-/

namespace Tilework

variable {σ : Type} [TileSource σ]

/-- What named expressions give when they are composed one after another in one session, whatever
becomes of those before them. -/
def Session.results :
    List (String × String) → Session σ → List (String × Except ComposeFault Composition)
  | [], _ => []
  | (name, expression) :: rest, session =>
    (name, (session.compose name expression).1) ::
      results rest (session.compose name expression).2

namespace CommandLine

/-- The first failure among results, with its name. -/
def firstFailure? (results : List (String × Except ComposeFault Composition)) :
    Option (String × ComposeFault) :=
  results.findSome? fun (name, result) =>
    match result with
    | .error fault => some (name, fault)
    | .ok _ => none

def successes (results : List (String × Except ComposeFault Composition)) : List Composition :=
  results.filterMap (·.2.toOption)

theorem map_ok_successes {results : List (String × Except ComposeFault Composition)}
    (h : firstFailure? results = none) : (successes results).map .ok = results.map (·.2) := by
  induction results with
  | nil => rfl
  | cons result results ih =>
    obtain ⟨name, fault | c⟩ := result
    · cases h
    · exact congrArg (Except.ok c :: ·) (ih h)

/-- Composing up to the first failure gives that failure, or else all successes. -/
theorem composeAll_eq (named : List (String × String)) (session : Session σ) :
    (composeAll named session).2 =
      match firstFailure? (session.results named) with
      | some (name, fault) => .error (.run name fault)
      | none => .ok (successes (session.results named)) := by
  induction named generalizing session with
  | nil => rfl
  | cons first named ih =>
    obtain ⟨name, expression⟩ := first
    rw [composeAll, Session.results]
    rcases session.compose name expression with ⟨fault | c, after⟩
    · rfl
    · change (composeAll named after).2.map (c :: ·) =
        match firstFailure? (after.results named) with
        | some (name, fault) => Except.error (Failure.run name fault)
        | none => Except.ok (c :: successes (after.results named))
      rw [ih]
      cases firstFailure? (after.results named) <;> rfl

theorem isPlain_of_mem_events {session : Session σ} {name expression : String} {event : Event}
    (h : event ∈ session.events name expression) (wording : DocumentWording) :
    event.IsPlain wording ∨
      ∃ fault, (session.compose name expression).1 = .error fault ∧ event = .failed name fault := by
  have hnew : session.machine.WarnsInLines := by
    intro d hd
    cases hd
  have hwarnings := hnew.run (TokenStream.ofText session.catalog expression).lexemes
    expression.utf8ByteSize
  rw [Session.events] at h
  rw [Session.compose]
  generalize session.machine.run (TokenStream.ofText session.catalog expression).lexemes
    expression.utf8ByteSize = attempt at h hwarnings ⊢
  obtain ⟨result, m⟩ := attempt
  rcases List.mem_append.mp h with h | h
  · obtain ⟨d, hd, rfl⟩ := List.mem_map.mp h
    exact Or.inl (Event.isPlain_warned (hwarnings d hd))
  · cases result with
    | error fault => exact Or.inr ⟨fault, rfl, List.mem_singleton.mp h⟩
    | ok tile =>
      rw [List.mem_singleton.mp h]
      exact Or.inl (Event.isPlain_completed _ _ _ _ _)

theorem isPlain_of_mem_composeAll {named : List (String × String)} {session : Session σ}
    {event : Event} (h : event ∈ (composeAll named session).1) (wording : DocumentWording) :
    event.IsPlain wording ∨
      ∃ name fault, firstFailure? (session.results named) = some (name, fault) ∧
        event = .failed name fault := by
  induction named generalizing session with
  | nil => cases h
  | cons first named ih =>
    obtain ⟨name, expression⟩ := first
    have hevents := fun hmem : event ∈ session.events name expression =>
      isPlain_of_mem_events hmem wording
    rw [composeAll] at h
    rw [Session.results]
    rcases hcompose : session.compose name expression with ⟨fault | c, after⟩
    · rw [hcompose] at h hevents
      rcases hevents h with hplain | ⟨cause, hcause, rfl⟩
      · exact Or.inl hplain
      · cases hcause
        exact Or.inr ⟨name, fault, rfl, rfl⟩
    · rw [hcompose] at h hevents
      rcases List.mem_append.mp h with h | h
      · refine Or.inl ((hevents h).resolve_right ?_)
        rintro ⟨cause, hcause, -⟩
        cases hcause
      · exact ih h

theorem successes_ne_nil {arguments : List String} {session : Session σ} (h : arguments ≠ [])
    (hall : firstFailure? (session.results (namedExpressions arguments)) = none) :
    successes (session.results (namedExpressions arguments)) ≠ [] := by
  intro hnil
  have hresults := map_ok_successes hall
  rw [hnil] at hresults
  cases arguments with
  | nil => exact h rfl
  | cons argument arguments => cases hresults

/-- The names of the runs that succeed with a diagnostic or with skipped input. -/
def noisyNames (results : List (String × Except ComposeFault Composition)) : List String :=
  results.filterMap fun (name, result) =>
    match result with
    | .ok c => if c.diagnostics ≠ [] ∨ c.skipped ≠ [] then some name else none
    | .error _ => none

theorem isNoisy_iff (c : Composition) : c.isNoisy = true ↔ c.diagnostics ≠ [] ∨ c.skipped ≠ [] := by
  simp [Composition.isNoisy]

theorem noisyNames_results (named : List (String × String)) (session : Session σ) :
    noisyNames (session.results named) =
      ((successes (session.results named)).filter (·.isNoisy)).map (·.name) := by
  induction named generalizing session with
  | nil => rfl
  | cons first named ih =>
    obtain ⟨name, expression⟩ := first
    rw [Session.results]
    rcases hcompose : session.compose name expression with ⟨fault | c, after⟩
    · exact ih after
    · have hsuccesses (rest : List (String × Except ComposeFault Composition)) :
          successes ((name, .ok c) :: rest) = c :: successes rest := rfl
      obtain rfl := Session.name_of_compose hcompose
      rw [hsuccesses, List.filter_cons, noisyNames, List.filterMap_cons]
      by_cases hnoisy : c.isNoisy = true
      · simp only [if_pos hnoisy, if_pos ((isNoisy_iff c).mp hnoisy)]
        exact congrArg (c.name :: ·) (ih after)
      · simp only [if_neg hnoisy, if_neg fun h => hnoisy ((isNoisy_iff c).mpr h)]
        exact ih after

theorem checkNoise_eq (denied : Bool) (named : List (String × String)) (session : Session σ) :
    checkNoise denied (successes (session.results named)) =
      if denied ∧ noisyNames (session.results named) ≠ [] then
        .error (.denied (noisyNames (session.results named)))
      else .ok () := by
  rw [checkNoise, noisyNames_results]
  cases (successes (session.results named)).filter (·.isNoisy) <;> simp

end CommandLine

end Tilework
