import Tilework.Proofs.Frame

/-!
# The ledger of a run

A ledger keeps, beside a machine, the tiles that it has loaded, an assembly for every tile that
stands in a frame, and the labels that it has fed. Every step of a run can be entered. The leaves
of what stands are loaded tiles in their order, and none is missing unless a diagnostic says that
tiles were left over; then every operator of the text has been applied or still waits. The result
of a run is the last assembly that stands.
-/

namespace Tilework

open Expression

structure Ledger where
  loaded : List Tile := []
  standing : List Assembly := []
  fed : List String := []

/-- Whether tiles were left over. -/
def Dropped (diagnostics : List Diagnostic) : Prop :=
  ∃ d ∈ diagnostics, d.warning.code = "W0005"

theorem Dropped.append_left {ds : List Diagnostic} (h : Dropped ds) (ds' : List Diagnostic) :
    Dropped (ds ++ ds') := by
  obtain ⟨d, hd, hcode⟩ := h
  exact ⟨d, List.mem_append_left _ hd, hcode⟩

theorem Frame.dropped_of_operands {group : Frame} {tile other : Tile} {others : List Tile}
    (h : group.operands = tile :: other :: others) (ds : List Diagnostic) :
    Dropped (ds ++ group.warnings.map (⟨·, group.openedAt⟩)) := by
  refine ⟨⟨.leftoverInGroup (other :: others).length, group.openedAt⟩, ?_, rfl⟩
  simp [warnings, h]

section records

variable {σ : Type} [TileSource σ]

/-- What a ledger says about a machine that has read the given tokens. -/
structure Ledger.Records (ledger : Ledger) (start : Machine σ) (lexemes : List Lexeme)
    (m : Machine σ) : Prop where
  served : serveAll (references lexemes) start.source = (.ok ledger.loaded, m.source)
  namespaces : m.namespaces = start.namespaces.advance ledger.loaded.length
  assembled : Assembled ledger.standing m.frames.tiles
  leaves : (ledger.standing.flatMap Expression.leaves).Sublist
    (number start.namespaces.next.toNat ledger.loaded)
  bounds : start.bounds.addAll ledger.fed = (.ok (), m.bounds)
  complete : ¬ Dropped m.diagnostics →
    ledger.standing.flatMap Expression.leaves = number start.namespaces.next.toNat ledger.loaded ∧
      ledger.standing.flatMap labels = ledger.fed
  operators : ¬ Dropped m.diagnostics →
    (ledger.standing.flatMap Expression.operators ++ m.frames.operators).Perm
      (Tilework.operators lexemes)

namespace Ledger.Records

variable {ledger : Ledger} {start m m' : Machine σ} {lexemes : List Lexeme}

theorem init (h : start.frames = {}) : Records {} start [] start where
  served := rfl
  namespaces := start.namespaces.advance_zero.symm
  assembled := by rw [h]; rfl
  leaves := List.Sublist.slnil
  bounds := rfl
  complete := fun _ => ⟨rfl, rfl⟩
  operators := fun _ => by rw [h]; rfl

theorem frame (h : ledger.Records start lexemes m) {frames : FrameStack} (ds : List Diagnostic)
    (htiles : frames.tiles = m.frames.tiles) (hoperators : frames.operators = m.frames.operators) :
    ledger.Records start lexemes
      { m with frames := frames, diagnostics := m.diagnostics ++ ds } where
  served := h.served
  namespaces := h.namespaces
  assembled := htiles ▸ h.assembled
  leaves := h.leaves
  bounds := h.bounds
  complete := fun hds => h.complete fun hdropped => hds (hdropped.append_left ds)
  operators := fun hds =>
    hoperators ▸ h.operators fun hdropped => hds (hdropped.append_left ds)

theorem skip (h : ledger.Records start lexemes m) {lexeme : Lexeme}
    (hreference : lexeme.token.reference? = none) (hoperator : lexeme.token.operator? = none) :
    ledger.Records start (lexemes ++ [lexeme]) m :=
  { h with
    served := by
      rw [references_concat, hreference, Option.toList_none, List.append_nil]
      exact h.served
    operators := by
      rw [operators_concat, hoperator, Option.toList_none, List.append_nil]
      exact h.operators }

theorem wait (h : ledger.Records start lexemes m) (op : Operator) (span : Span) :
    ledger.Records start (lexemes ++ [⟨.operator op, span⟩])
      { m with frames := m.frames.mapHead (·.pushOperator op) } :=
  { h with
    served := by simpa [references_concat, Token.reference?] using h.served
    assembled := by
      rw [FrameStack.tiles_pushOperator]
      exact h.assembled
    operators := by
      intro hds
      rw [operators_concat, FrameStack.operators_pushOperator]
      have hcons := ((h.operators hds).cons op).trans (List.perm_append_singleton op _).symm
      exact List.perm_middle.trans hcons }

theorem load (h : ledger.Records start lexemes m) {reference : Reference} {span : Span}
    {tile : Tile} {source : σ} (hserve : reference.serve m.source = (.ok tile, source)) :
    Records
      { loaded := ledger.loaded ++ [tile]
        standing := ledger.standing ++
          [leaf ⟨start.namespaces.next.toNat + ledger.loaded.length, tile⟩]
        fed := ledger.fed }
      start (lexemes ++ [⟨.tile reference.name reference.cls reference.param, span⟩])
      { m with
        source
        namespaces := ⟨m.namespaces.next + 1⟩
        frames := m.frames.mapHead (·.pushTile (tile.stamp m.namespaces.next.toNat)) } := by
  let i : Instance := ⟨start.namespaces.next.toNat + ledger.loaded.length, tile⟩
  have hstands : m.namespaces.StandsAt i.ordinal := by
    rw [h.namespaces]
    exact start.namespaces.standsAt_toNat.advance _
  have hnumber : number start.namespaces.next.toNat (ledger.loaded ++ [tile]) =
      number start.namespaces.next.toNat ledger.loaded ++ [i] := number_append _ _ _
  have hleaves : (ledger.standing ++ [leaf i]).flatMap Expression.leaves =
      ledger.standing.flatMap Expression.leaves ++ [i] := by
    rw [List.flatMap_append, List.flatMap_singleton]
    rfl
  -- Nothing has been fed or applied yet for the new leaf.
  have hlabels : (ledger.standing ++ [leaf i]).flatMap labels = ledger.standing.flatMap labels := by
    rw [List.flatMap_append, List.flatMap_singleton]
    exact List.append_nil _
  have hoperators : (ledger.standing ++ [leaf i]).flatMap Expression.operators =
      ledger.standing.flatMap Expression.operators := by
    rw [List.flatMap_append, List.flatMap_singleton]
    exact List.append_nil _
  constructor
  · rw [references_concat]
    exact serveAll_concat h.served hserve
  · rw [List.length_append, ← NamespaceCounter.advance_advance, ← h.namespaces]
    rfl
  · rw [FrameStack.tiles_pushTile, ← hstands.stamped]
    exact h.assembled.append (assembled_singleton.mpr ⟨_, rfl, rfl⟩)
  · rw [hnumber, hleaves]
    exact h.leaves.append_right _
  · exact h.bounds
  · intro hds
    obtain ⟨hall, hfed⟩ := h.complete hds
    rw [hnumber, hleaves, hlabels, hall]
    exact ⟨rfl, hfed⟩
  · intro hds
    rw [hoperators, FrameStack.operators_pushTile]
    simpa [operators_concat, Token.operator?] using h.operators hds

theorem drain (h : ledger.Records start lexemes m) (hdrain : m.drain = (.ok (), m')) :
    (∃ ledger' : Ledger, ledger'.Records start lexemes m') ∧
      m'.frames.head.operators = [] := by
  obtain ⟨head, bounds, happly, rfl⟩ := Machine.drain_eq_ok hdrain
  obtain ⟨outer, inner, hstanding, houter, hinner⟩ := assembled_append.mp h.assembled
  obtain ⟨inner', fed, hinner', hdrained, hleaves, hoperators, hlabels, hfed⟩ :=
    Frame.applyAll_eq_ok happly hinner
  refine ⟨?_, hdrained⟩
  have hall : (outer ++ inner').flatMap Expression.leaves =
      ledger.standing.flatMap Expression.leaves := by
    rw [hstanding, List.flatMap_append, List.flatMap_append, hleaves]
  refine ⟨⟨ledger.loaded, outer ++ inner', ledger.fed ++ fed⟩, ?_⟩
  constructor
  · exact h.served
  · exact h.namespaces
  · exact houter.append hinner'
  · rw [hall]
    exact h.leaves
  · rw [BoundTracker.addAll_append, h.bounds]
    exact hfed
  · intro hds
    obtain ⟨hcomplete, hlabel⟩ := h.complete hds
    refine ⟨hall.trans hcomplete, ?_⟩
    rw [← hlabel, hstanding, List.flatMap_append, List.flatMap_append, hlabels, List.append_assoc]
  · intro hds
    have hpending := h.operators hds
    rw [hstanding, FrameStack.operators, List.flatMap_append] at hpending
    simpa [FrameStack.operators, FrameStack.mapHead, hdrained, hoperators] using hpending

theorem leave (h : ledger.Records start lexemes m) {group : Frame} {rest : FrameStack}
    (hdrained : m.frames.head.operators = []) (hleave : m.frames.leave? = some (group, rest)) :
    ∃ ledger' : Ledger, ledger'.Records start lexemes
      { m with
        frames := rest.mapHead (·.receive group)
        diagnostics := m.diagnostics ++ group.warnings.map (⟨·, group.openedAt⟩) } := by
  have hassembled := h.assembled
  rw [FrameStack.tiles_leave hleave] at hassembled
  have hoperators := (FrameStack.operators_leave hleave hdrained).symm
  match hoperands : group.operands with
  | [] =>
    refine ⟨ledger, h.frame _ ?_ hoperators⟩
    rw [FrameStack.tiles_receive, FrameStack.tiles_leave hleave, hoperands]
    rfl
  | [tile] =>
    refine ⟨ledger, h.frame _ ?_ hoperators⟩
    rw [FrameStack.tiles_receive, FrameStack.tiles_leave hleave, hoperands]
    rfl
  | tile :: other :: others =>
    -- The last tile of the group stays, and those under it are dropped.
    rw [hoperands, List.reverse_cons] at hassembled
    obtain ⟨outer, inner, hstanding, houter, hinner⟩ := assembled_append.mp hassembled
    obtain ⟨left, last, rfl, hleft, hlast⟩ := assembled_append.mp hinner
    have hsub : ((outer ++ last).flatMap Expression.leaves).Sublist
        (ledger.standing.flatMap Expression.leaves) := by
      rw [hstanding, List.flatMap_append, List.flatMap_append, List.flatMap_append]
      exact (List.sublist_append_right _ _).append_left _
    have hdropped := Frame.dropped_of_operands hoperands m.diagnostics
    refine ⟨{ ledger with standing := outer ++ last }, ?_⟩
    constructor
    · exact h.served
    · exact h.namespaces
    · rw [FrameStack.tiles_receive, hoperands]
      exact houter.append hlast
    · exact hsub.trans h.leaves
    · exact h.bounds
    · exact fun hds => absurd hdropped hds
    · exact fun hds => absurd hdropped hds

theorem closeGroup (h : ledger.Records start lexemes m) {span : Span}
    (hclose : m.closeGroup span = (.ok (), m')) :
    ∃ ledger' : Ledger, ledger'.Records start lexemes m' := by
  obtain ⟨middle, hdrain, hcases⟩ := Machine.closeGroup_eq_ok hclose
  obtain ⟨⟨ledger', h'⟩, hdrained⟩ := h.drain hdrain
  rcases hcases with ⟨hnone, rfl⟩ | ⟨group, rest, hleave, rfl⟩
  · exact ⟨ledger', h'.frame _ rfl rfl⟩
  · exact h'.leave hdrained hleave

/-- What one token does is entered. -/
theorem step (h : ledger.Records start lexemes m) {lexeme : Lexeme}
    (hstep : m.step lexeme = (.ok (), m')) :
    ∃ ledger' : Ledger, ledger'.Records start (lexemes ++ [lexeme]) m' := by
  rcases lexeme with ⟨token, span⟩
  cases token with
  | tile name cls param =>
    obtain ⟨tile, source, hserve, rfl⟩ := Machine.step_tile_eq_ok ⟨name, cls, param⟩ hstep
    exact ⟨_, h.load hserve⟩
  | operator op =>
    cases hstep
    exact ⟨ledger, h.wait op span⟩
  | openParen =>
    cases hstep
    have hframe := h.frame [] (m.frames.tiles_enter span) (m.frames.operators_enter span)
    exact ⟨ledger, by simpa using hframe.skip rfl rfl⟩
  | closeParen =>
    obtain ⟨ledger', h'⟩ := h.closeGroup hstep
    exact ⟨ledger', h'.skip rfl rfl⟩
  | openBracket | closeBracket | integer value =>
    cases hstep
    exact ⟨ledger, (h.frame _ rfl rfl).skip rfl rfl⟩

theorem steps {more : List Lexeme} (h : ledger.Records start lexemes m)
    (hsteps : m.steps more = (.ok (), m')) :
    ∃ ledger' : Ledger, ledger'.Records start (lexemes ++ more) m' := by
  induction more generalizing ledger lexemes m with
  | nil =>
    cases hsteps
    exact ⟨ledger, by rwa [List.append_nil]⟩
  | cons lexeme more ih =>
    obtain ⟨u, middle, hstep, hsteps⟩ := Attempt.andThen_eq_ok hsteps
    obtain ⟨ledger', h'⟩ := h.step hstep
    rw [List.append_cons]
    exact ih h' hsteps

theorem closeOpen (h : ledger.Records start lexemes m) {stop : Span} {n : Nat}
    (hclose : m.closeOpen stop n = (.ok (), m')) :
    ∃ ledger' : Ledger, ledger'.Records start lexemes m' := by
  induction n generalizing ledger m with
  | zero =>
    cases hclose
    exact ⟨ledger, h⟩
  | succ n ih =>
    obtain ⟨u, middle, hgroup, hclose⟩ := Attempt.andThen_eq_ok hclose
    have hwarn : ledger.Records start lexemes
        (m.warn .unclosedOpen m.frames.head.openedAt) := h.frame _ rfl rfl
    obtain ⟨ledger', h'⟩ := hwarn.closeGroup hgroup
    exact ih h' hclose

end Ledger.Records

/-- Where the tile of a run comes from: an assembly of loaded tiles, of all of them unless a
diagnostic says that tiles were left over. -/
structure Origin (start : Machine σ) (lexemes : List Lexeme) (loaded : List Tile)
    (assembly : Assembly) (tile : Tile) (m : Machine σ) : Prop where
  served : serveAll (references lexemes) start.source = (.ok loaded, m.source)
  namespaces : m.namespaces = start.namespaces.advance loaded.length
  assembled : assembly.assemble = some { tile with parameterBounds := assembly.label? }
  unlabelled : tile.parameterBounds = none
  leaves : assembly.leaves.Sublist (number start.namespaces.next.toNat loaded)
  complete : ¬ Dropped m.diagnostics →
    assembly.leaves = number start.namespaces.next.toNat loaded ∧
      start.bounds.addAll (assembly.labels ++ assembly.label?.toList) = (.ok (), m.bounds)
  operators : ¬ Dropped m.diagnostics → assembly.operators.Perm (Tilework.operators lexemes)

namespace Machine

variable {start m m' : Machine σ} {lexemes : List Lexeme} {tile : Tile}

theorem origin_of_result {ledger : Ledger} (h : ledger.Records start lexemes m)
    (hbelow : m.frames.below = []) (hdrained : m.frames.head.operators = []) {stop : Span}
    (hresult : m.result stop = (.ok tile, m')) :
    ∃ assembly, Origin start lexemes ledger.loaded assembly tile m' := by
  obtain ⟨whole, rest, hoperands, rfl, hadd, hm⟩ := result_eq_ok hresult
  have htiles : m.frames.tiles = rest.reverse ++ [whole] := by
    simp [FrameStack.tiles, hbelow, hoperands]
  obtain ⟨others, last, hstanding, hothers, hlast⟩ := assembled_append.mp (htiles ▸ h.assembled)
  obtain ⟨assembly, rfl, hassembly⟩ := assembled_singleton.mp hlast
  have hlabel : whole.parameterBounds = assembly.label? := parameterBounds_assemble hassembly
  have hleaves : ledger.standing.flatMap Expression.leaves =
      others.flatMap Expression.leaves ++ assembly.leaves := by
    rw [hstanding, List.flatMap_append, List.flatMap_singleton]
  -- Unless tiles are left over, the result stands alone.
  have halone : ¬ Dropped m'.diagnostics →
      ledger.standing = [assembly] ∧ ¬ Dropped m.diagnostics := by
    intro hds
    rw [hm] at hds
    have hrest : rest = [] := by
      by_contra hne
      rw [if_neg hne] at hds
      exact hds ⟨_, List.mem_append_right _ (List.mem_singleton_self _), rfl⟩
    have hnil : others = [] := by
      have hlength := hothers.length_eq
      rw [hrest] at hlength
      exact List.length_eq_zero_iff.mp hlength
    refine ⟨?_, fun hdrop => hds (hdrop.append_left _)⟩
    rw [hstanding, hnil, List.nil_append]
  refine ⟨assembly, ?_⟩
  constructor
  · rw [hm]
    exact h.served
  · rw [hm]
    exact h.namespaces
  · rw [hassembly, ← hlabel]
  · rfl
  · exact (List.sublist_append_right _ _).trans (hleaves ▸ h.leaves)
  · intro hds
    obtain ⟨hone, hkept⟩ := halone hds
    obtain ⟨hall, hfed⟩ := h.complete hkept
    rw [hone, List.flatMap_singleton] at hall hfed
    refine ⟨hall, ?_⟩
    rw [BoundTracker.addAll_append, hfed, h.bounds, Attempt.andThen_ok, ← hlabel]
    exact hadd
  · intro hds
    obtain ⟨hone, hkept⟩ := halone hds
    have hpending := h.operators hkept
    rwa [hone, List.flatMap_singleton, FrameStack.operators, hdrained, hbelow, List.flatMap_nil,
      List.append_nil, List.append_nil] at hpending

/-- The tile of a run comes from the tiles that its references are served. -/
theorem origin_of_run {stop : Nat} (hframes : start.frames = {})
    (h : start.run lexemes stop = (.ok tile, m)) :
    ∃ loaded assembly, Origin start lexemes loaded assembly tile m := by
  obtain ⟨u, read, hsteps, h⟩ := Attempt.andThen_eq_ok h
  obtain ⟨u, closed, hclose, h⟩ := Attempt.andThen_eq_ok h
  obtain ⟨u, drained, hdrain, hresult⟩ := Attempt.andThen_eq_ok h
  obtain ⟨ledger₁, h₁⟩ := (Ledger.Records.init hframes).steps hsteps
  obtain ⟨ledger₂, h₂⟩ := h₁.closeOpen hclose
  obtain ⟨⟨ledger₃, h₃⟩, hdrained⟩ := h₂.drain hdrain
  have hnone : drained.frames.below = [] := by
    rw [below_of_drain hdrain, below_of_closeOpen hclose, List.drop_length]
  exact ⟨ledger₃.loaded, origin_of_result h₃ hnone hdrained hresult⟩

end Machine

end records

end Tilework
