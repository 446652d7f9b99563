import Tilework.Proofs.Isolation
import Tilework.Proofs.Reading

/-!
# Runs over a source that serves its catalog

A text gives references to entries of its catalog only. So a run never fails by a fault of its
source when the source serves every entry of the catalog and loading keeps it so; nothing else that
a run does can give such a fault. The same then holds of all later runs of the session.
-/

namespace Tilework

/-- The fault is none of the source. -/
def ComposeFault.Inner : ComposeFault → Prop
  | source _ => False
  | _ => True

def Attempt.Inner {σ α : Type} (attempt : Attempt σ α) : Prop :=
  ∀ fault, attempt.1 = .error fault → fault.Inner

section attempt

variable {σ α β : Type}

theorem Attempt.inner_ok (value : α) (state : σ) : Inner (.ok value, state) := nofun

theorem Attempt.inner_error {fault : ComposeFault} (h : fault.Inner) (state : σ) :
    Inner (α := α) (.error fault, state) := by
  intro _ heq
  cases heq
  exact h

theorem Attempt.Inner.andThen {attempt : Attempt σ α} {next : α → σ → Attempt σ β}
    (h : attempt.Inner) (hnext : ∀ value state, (next value state).Inner) :
    (attempt.andThen next).Inner := by
  rcases attempt with ⟨fault | value, state⟩
  · exact inner_error (h fault rfl) state
  · exact hnext value state

end attempt

open Attempt

theorem BoundTracker.inner_addAll (labels : List String) (tracker : BoundTracker) :
    (tracker.addAll labels).Inner := by
  rcases hadd : tracker.addAll labels with ⟨fault | u, fed⟩
  · obtain ⟨cause, rfl⟩ := addAll_eq_error hadd
    exact inner_error (by trivial) fed
  · exact inner_ok u fed

theorem Operator.inner_apply (op : Operator) (tiles : List Tile) (tracker : BoundTracker) :
    (op.apply tiles tracker).Inner := by
  rw [apply]
  split
  · exact inner_error (by trivial) _
  · exact inner_error (by trivial) _
  · exact (tracker.inner_addAll _).andThen fun u fed => inner_ok _ _

theorem Frame.inner_applyAll (ops : List Operator) (frame : Frame) (tracker : BoundTracker) :
    (applyAll ops frame tracker).Inner := by
  induction ops generalizing frame tracker with
  | nil => exact inner_ok _ _
  | cons op ops ih =>
    rw [applyAll]
    split
    · exact inner_error (by trivial) _
    · have happly := op.inner_apply (frame.operands.take op.arity).reverse tracker
      rcases hresult : op.apply (frame.operands.take op.arity).reverse tracker with
        ⟨fault | tile, fed⟩
      · rw [hresult] at happly
        exact inner_error (happly fault rfl) _
      · exact ih _ fed

section run

variable {σ : Type} {P : σ → Prop} {α β : Type}

/-- The source stays in `P`, and a fault is none of the source. -/
structure Attempt.Supplied (P : σ → Prop) (attempt : Attempt (Machine σ) α) : Prop where
  source : P attempt.2.source
  inner : attempt.Inner

theorem Attempt.Supplied.andThen {attempt : Attempt (Machine σ) α}
    {next : α → Machine σ → Attempt (Machine σ) β} (h : Supplied P attempt)
    (hnext : ∀ value m, P m.source → Supplied P (next value m)) :
    Supplied P (attempt.andThen next) := by
  rcases attempt with ⟨fault | value, m⟩
  · exact ⟨h.source, inner_error (h.inner fault rfl) m⟩
  · exact hnext value m h.source

section serves

variable [TileSource σ]

/-- In `P`, a tile is made of every entry of the catalog, and the source stays in `P`. -/
def Serves (P : σ → Prop) (catalog : Catalog) : Prop :=
  ∀ source, P source → ∀ name cls, (name, cls) ∈ catalog.entries → ∀ param,
    (∃ tile, (TileSource.load source name cls param).1 = .ok tile) ∧
      P (TileSource.load source name cls param).2

end serves

namespace Machine

variable {m : Machine σ}

theorem supplied_ok (h : P m.source) (value : α) : Supplied P (.ok value, m) :=
  ⟨h, inner_ok value m⟩

theorem supplied_drain (h : P m.source) : Supplied P m.drain :=
  ⟨h, Frame.inner_applyAll _ _ _⟩

theorem supplied_closeGroup (h : P m.source) (span : Span) : Supplied P (m.closeGroup span) := by
  refine (supplied_drain h).andThen fun u drained hdrained => ?_
  cases drained.frames.leave? with
  | none => exact ⟨hdrained, inner_ok _ _⟩
  | some left =>
    simp only [foldl_warn]
    exact ⟨hdrained, inner_ok _ _⟩

theorem supplied_closeOpen (h : P m.source) (stop : Span) (n : Nat) :
    Supplied P (m.closeOpen stop n) := by
  induction n generalizing m with
  | zero => exact supplied_ok h ()
  | succ n ih =>
    rw [closeOpen]
    refine Supplied.andThen ?_ fun u closed hclosed => ih hclosed
    exact supplied_closeGroup (m := m.warn _ _) h stop

theorem supplied_result (h : P m.source) (stop : Span) : Supplied P (m.result stop) := by
  rw [result]
  split
  · exact ⟨h, inner_error (by trivial) _⟩
  · next tile rest _ =>
    have hsource : (if rest.isEmpty then m else m.warn (.leftover rest.length) stop).source =
        m.source := by
      split <;> rfl
    generalize (if rest.isEmpty then m else m.warn (.leftover rest.length) stop) = warned at *
    have hlabels := warned.bounds.inner_addAll tile.parameterBounds.toList
    refine ⟨hsource ▸ h, ?_⟩
    rcases hfed : warned.bounds.addAll tile.parameterBounds.toList with ⟨fault | u, fed⟩
    · rw [hfed] at hlabels
      simp only [hfed]
      exact inner_error (hlabels fault rfl) _
    · simp only [hfed]
      exact inner_ok _ _

theorem supplied_finish (h : P m.source) (stop : Span) : Supplied P (m.finish stop) := by
  refine (supplied_closeOpen h stop _).andThen fun u closed hclosed => ?_
  exact (supplied_drain hclosed).andThen fun u drained hdrained => supplied_result hdrained stop

variable [TileSource σ] {catalog : Catalog}

theorem supplied_load (hserves : Serves P catalog) (h : P m.source) {name : String}
    {cls : TileClass} (hentry : (name, cls) ∈ catalog.entries) (param : Nat) :
    Supplied P (m.load name cls param) := by
  obtain ⟨⟨tile, htile⟩, hsource⟩ := hserves m.source h name cls hentry param
  rw [load]
  rcases hload : TileSource.load m.source name cls param with ⟨fault | made, source⟩
  · rw [hload] at htile
    cases htile
  · rw [hload] at hsource
    dsimp only
    cases cls.check made with
    | error defect => exact ⟨hsource, inner_error (by trivial) _⟩
    | ok u => exact ⟨hsource, inner_ok _ _⟩

theorem supplied_step (hserves : Serves P catalog) (h : P m.source) {lexeme : Lexeme}
    (hknown : lexeme.token.Known catalog) : Supplied P (m.step lexeme) := by
  rcases lexeme with ⟨token, span⟩
  cases token with
  | tile name cls param =>
    exact (supplied_load hserves h hknown.1 param).andThen fun tile loaded hloaded =>
      ⟨hloaded, inner_ok _ _⟩
  | closeParen => exact supplied_closeGroup h span
  | operator op => exact ⟨h, inner_ok _ _⟩
  | openParen => exact ⟨h, inner_ok _ _⟩
  | openBracket => exact ⟨h, inner_ok _ _⟩
  | closeBracket => exact ⟨h, inner_ok _ _⟩
  | integer n => exact ⟨h, inner_ok _ _⟩

theorem supplied_steps (hserves : Serves P catalog) (h : P m.source) {lexemes : List Lexeme}
    (hknown : ∀ lexeme ∈ lexemes, lexeme.token.Known catalog) : Supplied P (m.steps lexemes) := by
  induction lexemes generalizing m with
  | nil => exact supplied_ok h ()
  | cons lexeme lexemes ih =>
    rw [List.forall_mem_cons] at hknown
    exact (supplied_step hserves h hknown.1).andThen fun u stepped hstepped => ih hstepped hknown.2

theorem supplied_run (hserves : Serves P catalog) (h : P m.source) {lexemes : List Lexeme}
    (hknown : ∀ lexeme ∈ lexemes, lexeme.token.Known catalog) (stop : Nat) :
    Supplied P (m.run lexemes stop) :=
  (supplied_steps hserves h hknown).andThen fun _ _ hstepped =>
    supplied_finish hstepped (.point stop)

end Machine

end run

namespace Session

variable {σ : Type} [TileSource σ] {P : σ → Prop} {start session : Session σ}

theorem supplied_compose (hserves : Serves P session.catalog) (h : P session.source)
    (name expression : String) :
    P (session.compose name expression).2.source ∧ (session.compose name expression).Inner := by
  have hknown : ∀ lexeme ∈ (TokenStream.ofText session.catalog expression).lexemes,
      lexeme.token.Known session.catalog :=
    fun lexeme hmem => TokenStream.known_of_mem_ofText (List.mem_map_of_mem hmem)
  have hrun := Machine.supplied_run (m := session.machine) hserves h hknown expression.utf8ByteSize
  rcases hcompose : session.compose name expression with ⟨fault | c, after⟩
  · obtain ⟨m, hm, rfl⟩ := compose_eq_error hcompose
    rw [hm] at hrun
    exact ⟨hrun.source, inner_error (hrun.inner fault rfl) _⟩
  · obtain ⟨m, hm, -, -, rfl⟩ := compose_eq_ok hcompose
    rw [hm] at hrun
    exact ⟨hrun.source, inner_ok c _⟩

/-- The sessions that operations make of a session without changing its source from outside. -/
inductive Later (start : Session σ) : Session σ → Prop
  | refl : Later start start
  | perform {session : Session σ} (h : Later start session) {op : Operation σ}
      (hop : ∀ change, op ≠ .changeSource change) : Later start (session.perform op).2

theorem Later.supplied (h : Later start session) (hserves : Serves P start.catalog)
    (hsource : P start.source) : session.catalog = start.catalog ∧ P session.source := by
  induction h with
  | refl => exact ⟨rfl, hsource⟩
  | @perform session h op hop ih =>
    obtain ⟨hcatalog, hsource⟩ := ih
    cases op with
    | compose name expression =>
      refine ⟨(catalog_compose session name expression).trans hcatalog, ?_⟩
      exact (supplied_compose (hcatalog ▸ hserves) hsource name expression).1
    | resetBounds => exact ⟨hcatalog, hsource⟩
    | resetNamespaces => exact ⟨hcatalog, hsource⟩
    | changeSource change => exact absurd rfl (hop change)

/-- No run of a session fails by its source while the source serves the catalog. -/
theorem Later.ne_source (h : Later start session) (hserves : Serves P start.catalog)
    (hsource : P start.source) (name expression : String) (fault : SourceFault) :
    (session.compose name expression).1 ≠ .error (.source fault) := by
  obtain ⟨hcatalog, hsource⟩ := h.supplied hserves hsource
  intro heq
  exact (supplied_compose (hcatalog ▸ hserves) hsource name expression).2 _ heq

end Session

end Tilework
