import Tilework.Proofs.History
import Tilework.Proofs.Unseen

/-!
# Runs of a session are isolated

Every run of a session starts without bounds and leaves none behind. A run that succeeds stores its
bounds under its name; a run that fails stores nothing, wherever it fails. Stored bounds have no
part in what a run gives. The counter goes on by the number of tiles that the run has loaded, and
starts again behind the greatest number.
-/

namespace Tilework

open Edit

section run

variable {σ : Type} [TileSource σ]

/-- A run keeps the bounds that are stored by name, whether it fails or not. -/
theorem Machine.stored_run (m : Machine σ) (lexemes : List Lexeme) (stop : Nat) :
    (m.run lexemes stop).2.bounds.stored = m.bounds.stored := by
  have hsame : (restore m.bounds.stored).machine m = m := by
    simp [machine, restore]
  have hrun := (restore m.bounds.stored).run_machine m (fun _ => rfl) lexemes stop
  rw [hsame] at hrun
  rw [hrun]
  rfl

end run

namespace Session

variable {σ : Type} [TileSource σ] {session after : Session σ} {name expression : String}

theorem compose_eq_error {fault : ComposeFault}
    (h : session.compose name expression = (.error fault, after)) :
    ∃ m, session.machine.run (TokenStream.ofText session.catalog expression).lexemes
        expression.utf8ByteSize = (.error fault, m) ∧
      after = { session with
        source := m.source, namespaces := m.namespaces, bounds := m.bounds.reset } := by
  rw [compose] at h
  rcases hrun : session.machine.run (TokenStream.ofText session.catalog expression).lexemes
    expression.utf8ByteSize with ⟨fault | tile, m⟩
  · rw [hrun] at h
    cases h
    exact ⟨m, rfl, rfl⟩
  · rw [hrun] at h
    cases h

theorem bounds?_of_compose_eq_ok {c : Composition}
    (h : session.compose name expression = (.ok c, after)) :
    after.bounds? name = some c.bounds ∧
      ∀ other, other ≠ name → after.bounds? other = session.bounds? other := by
  obtain ⟨m, hrun, hbounds, -, rfl⟩ := compose_eq_ok h
  have hstored := session.machine.stored_run
    (TokenStream.ofText session.catalog expression).lexemes expression.utf8ByteSize
  rw [hrun] at hstored
  rw [hbounds]
  refine ⟨Table.get?_put_self _ _ _, fun other hother => ?_⟩
  have hother : (m.bounds.stored.put name m.bounds.current).get? other =
      m.bounds.stored.get? other := Table.get?_put_of_ne _ _ hother
  exact hother.trans (congrArg (Table.get? · other) hstored)

theorem catalog_compose (session : Session σ) (name expression : String) :
    (session.compose name expression).2.catalog = session.catalog := by
  rw [compose]
  rcases session.machine.run (TokenStream.ofText session.catalog expression).lexemes
    expression.utf8ByteSize with ⟨fault | tile, m⟩ <;> rfl

theorem bounds?_of_compose_eq_error {fault : ComposeFault}
    (h : session.compose name expression = (.error fault, after)) (other : String) :
    after.bounds? other = session.bounds? other := by
  obtain ⟨m, hrun, rfl⟩ := compose_eq_error h
  have hstored := session.machine.stored_run
    (TokenStream.ofText session.catalog expression).lexemes expression.utf8ByteSize
  rw [hrun] at hstored
  exact congrArg (Table.get? · other) hstored

theorem current_compose (session : Session σ) (name expression : String) :
    (session.compose name expression).2.bounds.current = [] := by
  rcases hcompose : session.compose name expression with ⟨fault | c, after⟩
  · obtain ⟨m, -, rfl⟩ := compose_eq_error hcompose
    rfl
  · obtain ⟨m, -, -, -, rfl⟩ := compose_eq_ok hcompose
    rfl

/-- The outcome of a run depends on its catalog, its source and its first number only, when there
are no bounds in the working set. -/
theorem compose_congr {session session' : Session σ} (hcurrent : session.bounds.current = [])
    (hcurrent' : session'.bounds.current = []) (hcatalog : session'.catalog = session.catalog)
    (hsource : session'.source = session.source)
    (hnamespaces : session'.namespaces = session.namespaces) (name expression : String) :
    (session'.compose name expression).1 = (session.compose name expression).1 ∧
      (session'.compose name expression).2.source = (session.compose name expression).2.source := by
  have hmachine : session'.machine = (restore session'.bounds.stored).machine session.machine := by
    have hbounds : session'.bounds = ⟨session.bounds.current, session'.bounds.stored⟩ := by
      rw [hcurrent, ← hcurrent']
    rw [Session.machine, hsource, hnamespaces, hbounds]
    rfl
  have hrun := (restore session'.bounds.stored).run_machine session.machine (fun _ => rfl)
    (TokenStream.ofText session.catalog expression).lexemes expression.utf8ByteSize
  rw [compose, compose, hcatalog, hmachine, hrun]
  rcases session.machine.run (TokenStream.ofText session.catalog expression).lexemes
    expression.utf8ByteSize with ⟨fault | tile, m⟩
  · exact ⟨rfl, rfl⟩
  · simp [Edit.machine, restore]

/-- The sessions that operations make of a new one. -/
inductive Reachable : Session σ → Prop
  | new (source : σ) (catalog : Catalog) : Reachable { source, catalog }
  | perform {session : Session σ} (h : Reachable session) (op : Operation σ) :
      Reachable (session.perform op).2

theorem Reachable.current_eq_nil (h : session.Reachable) : session.bounds.current = [] := by
  induction h with
  | new source catalog => rfl
  | perform h op ih =>
    cases op with
    | compose name expression => exact current_compose _ name expression
    | resetBounds => rfl
    | resetNamespaces => exact ih
    | changeSource change => exact ih

def lowTile : Tile where
  name := "lo"
  parameterBounds := some "0:5|8:inf"
  locations := [{ id := "o", role := some .exit }]

def midTile : Tile where
  name := "mid"
  parameterBounds := some "3:10"
  locations := [{ id := "i", role := some .entry }]

def rangeSource : MemorySource where
  tiles := [("lo", .accepting, lowTile), ("mid", .accepting, midTile)]

def rangeCatalog : Catalog := ⟨[("mid", .accepting), ("lo", .accepting)]⟩

def rangeBounds : List Bound :=
  [.interval ⟨false, 0x4008000000000000⟩ ⟨false, 0x4014000000000000⟩,
    .interval ⟨false, 0x4020000000000000⟩ ⟨false, 0x4024000000000000⟩]

def rangeSession : Session MemorySource :=
  ((({ source := rangeSource, catalog := rangeCatalog } : Session MemorySource).perform
    (.compose "r" "lo + mid")).2.perform .resetNamespaces).2

def freshSession : Session MemorySource where
  source := rangeSession.source
  catalog := rangeSession.catalog

theorem compose_rangeSession :
    (rangeSession.compose "r" "lo + mid +").1.toOption = none ∧
      rangeSession.bounds? "r" = some rangeBounds ∧
      rangeSession.namespaces.next = 0 ∧ rangeSession.runLoads "lo + mid +" = 2 := by
  decide +kernel

theorem runLoads_lo {session : Session MemorySource} (hsource : session.source = rangeSource)
    (hcatalog : session.catalog = rangeCatalog) : session.runLoads "lo" = 1 := by
  have htext : (TokenStream.ofText rangeCatalog "lo").lexemes =
      [⟨.tile "lo" .accepting 0, ⟨0, 2⟩⟩] := by decide +kernel
  have hserve : (Reference.serve ⟨"lo", .accepting, 0⟩ rangeSource).1.toOption = some lowTile := by
    decide +kernel
  have hserved : session.machine.served? ⟨.tile "lo" .accepting 0, ⟨0, 2⟩⟩ = some lowTile := by
    rw [← hserve, ← hsource]
    rfl
  rw [runLoads, hcatalog, htext, Machine.servedAll_singleton, hserved]
  rfl

/-- A run of one reference, after which the source is put back, takes one number. -/
theorem exists_reachable_advance (n : Nat) :
    ∃ session : Session MemorySource, session.Reachable ∧ session.source = rangeSource ∧
      session.catalog = rangeCatalog ∧
      session.namespaces = ({} : NamespaceCounter).advance n := by
  induction n with
  | zero =>
    exact ⟨{ source := rangeSource, catalog := rangeCatalog }, .new _ _, rfl, rfl,
      (NamespaceCounter.advance_zero _).symm⟩
  | succ n ih =>
    obtain ⟨session, hreachable, hsource, hcatalog, hnamespaces⟩ := ih
    -- Putting the source back makes the next run the same but for its number.
    let after := (session.perform (.compose "r" "lo")).2
    refine ⟨(after.perform (.changeSource fun _ => rangeSource)).2,
      .perform (.perform hreachable _) _, rfl, ?_, ?_⟩
    · exact (session.catalog_compose "r" "lo").trans hcatalog
    · have hafter := session.namespaces_compose "r" "lo"
      rw [runLoads_lo hsource hcatalog, hnamespaces, NamespaceCounter.advance_advance] at hafter
      exact hafter

end Session

end Tilework
