import Mathlib.Data.List.ReduceOption
import Tilework.Proofs.Choices
import Tilework.Proofs.Conservation
import Tilework.Proofs.Isolation

/-!
# What contributes to the bounds

A sketch follows a run. Where a tile stands, it has the instance, or nothing for a composite, which
has no label. An operator takes instances away and feeds their labels, so that an instance is an
operand at most once; the result feeds the label that it still has. What is left over feeds nothing.
-/

namespace Tilework

def Instance.label? (i : Instance) : Option String := i.tile.parameterBounds

/-- An instance that no operator was applied to. There is none for a composite. -/
abbrev Piece := Option Instance

/-- What stands in a frame, the latest of each first. -/
structure Layer where
  pieces : List Piece := []
  operators : List Operator := []

/-- Apply operators, the first one to the latest pieces. The instances that they take away are given
in this order, with the pieces that remain. -/
def Layer.applyAll : List Operator → List Piece → List Instance × List Piece
  | [], pieces => ([], pieces)
  | op :: ops, pieces =>
    let (merged, left) := applyAll ops (none :: pieces.drop op.arity)
    ((pieces.take op.arity).reverse.reduceOption ++ merged, left)

structure Sketch where
  /-- The instances that are still to be loaded. -/
  coming : List Instance
  head : Layer := {}
  below : List Layer := []
  /-- The operands of operators, in the order in which these are applied. -/
  merged : List Instance := []
  /-- What is left over in groups. -/
  dropped : List Instance := []

namespace Sketch

def load (s : Sketch) : Sketch :=
  match s.coming with
  | [] => s
  | i :: coming => { s with coming, head := { s.head with pieces := some i :: s.head.pieces } }

def drain (s : Sketch) : Sketch :=
  let (merged, pieces) := Layer.applyAll s.head.operators s.head.pieces
  { s with head := { pieces }, merged := s.merged ++ merged }

/-- The latest piece of a group stands in the frame around it. -/
def leave (s : Sketch) : Sketch :=
  match s.below with
  | [] => s
  | parent :: below =>
    { s with
      head := { parent with pieces := s.head.pieces.take 1 ++ parent.pieces }
      below
      dropped := s.dropped ++ (s.head.pieces.drop 1).reduceOption }

def close (s : Sketch) : Sketch := s.drain.leave

def step (s : Sketch) : Token → Sketch
  | .tile _ _ _ => s.load
  | .operator op => { s with head := { s.head with operators := op :: s.head.operators } }
  | .openParen => { s with head := {}, below := s.head :: s.below }
  | .closeParen => s.close
  | .openBracket | .closeBracket | .integer _ => s

def steps (s : Sketch) (lexemes : List Lexeme) : Sketch :=
  lexemes.foldl (fun s lexeme => s.step lexeme.token) s

def finish (s : Sketch) : Sketch := (close^[s.below.length] s).drain

/-- The sketch of a run that loads the given instances. -/
def ofRun (lexemes : List Lexeme) (instances : List Instance) : Sketch :=
  (steps { coming := instances } lexemes).finish

def result? (s : Sketch) : Option Instance := s.head.pieces.head?.join

/-- The operands of operators, and the result if it is none of them. -/
def contributing (s : Sketch) : List Instance := s.merged ++ s.result?.toList

def leftover (s : Sketch) : List Instance := s.dropped ++ (s.head.pieces.drop 1).reduceOption

end Sketch

/-! ## Nothing is taken twice -/

theorem Layer.perm_applyAll (ops : List Operator) (pieces : List Piece) :
    ((applyAll ops pieces).1 ++ (applyAll ops pieces).2.reduceOption).Perm pieces.reduceOption := by
  induction ops generalizing pieces with
  | nil => exact .rfl
  | cons op ops ih =>
    have hrest := ih (none :: pieces.drop op.arity)
    rw [List.reduceOption_cons_of_none] at hrest
    have htaken : (pieces.take op.arity).reverse.reduceOption.Perm
        (pieces.take op.arity).reduceOption := (List.reverse_perm _).filterMap id
    have hall := htaken.append hrest
    rw [← List.reduceOption_append, List.take_append_drop] at hall
    rw [applyAll, List.append_assoc]
    exact hall

namespace Sketch

def instances (s : Sketch) : List Instance :=
  s.coming ++ (s.head :: s.below).flatMap (·.pieces.reduceOption) ++ s.merged ++ s.dropped

variable (s : Sketch)

theorem coming_close : s.close.coming = s.coming := by
  rw [close, leave]
  split <;> rfl

theorem coming_iterate_close (n : Nat) : (close^[n] s).coming = s.coming := by
  induction n generalizing s with
  | zero => rfl
  | succ n ih =>
    rw [Function.iterate_succ_apply, ih, coming_close]

theorem perm_load : s.load.instances.Perm s.instances := by
  rw [load]
  split
  · exact .rfl
  · next i coming hcoming =>
    rw [List.perm_iff_count]
    intro j
    simp only [instances, hcoming, List.flatMap_cons, List.reduceOption_cons_of_some,
      List.cons_append, List.count_append, List.count_cons]
    omega

theorem perm_drain : s.drain.instances.Perm s.instances := by
  have hdrain := Layer.perm_applyAll s.head.operators s.head.pieces
  rw [List.perm_iff_count] at hdrain ⊢
  intro j
  have hcount := hdrain j
  simp only [instances, drain, List.flatMap_cons, List.count_append] at hcount ⊢
  omega

theorem perm_leave : s.leave.instances.Perm s.instances := by
  rw [leave]
  split
  · exact .rfl
  · next parent below hbelow =>
    have hpieces := List.reduceOption_append (s.head.pieces.take 1) (s.head.pieces.drop 1)
    rw [List.take_append_drop] at hpieces
    rw [List.perm_iff_count]
    intro j
    simp only [instances, hbelow, hpieces, List.flatMap_cons, List.reduceOption_append,
      List.count_append]
    omega

theorem perm_close : s.close.instances.Perm s.instances :=
  (perm_leave _).trans s.perm_drain

theorem perm_step (token : Token) : (s.step token).instances.Perm s.instances := by
  cases token with
  | tile name cls param => exact s.perm_load
  | closeParen => exact s.perm_close
  | operator op | openBracket | closeBracket | integer value => exact .rfl
  | openParen =>
    rw [step, instances, instances, List.flatMap_cons]
    exact .rfl

theorem perm_steps (lexemes : List Lexeme) : (s.steps lexemes).instances.Perm s.instances := by
  induction lexemes generalizing s with
  | nil => exact .rfl
  | cons lexeme lexemes ih => exact (ih _).trans (s.perm_step lexeme.token)

theorem perm_iterate_close (n : Nat) : (close^[n] s).instances.Perm s.instances := by
  induction n generalizing s with
  | zero => exact .rfl
  | succ n ih =>
    rw [Function.iterate_succ_apply]
    exact (ih _).trans s.perm_close

/-- A sketch loses no instance and repeats none. -/
theorem perm_ofRun (lexemes : List Lexeme) (instances : List Instance) :
    (ofRun lexemes instances).instances.Perm instances := by
  have hstart : Sketch.instances { coming := instances } = instances := by
    simp [Sketch.instances]
  refine ((perm_drain _).trans (perm_iterate_close _ _)).trans ?_
  exact (perm_steps _ lexemes).trans (.of_eq hstart)

/-- At the end of a run every instance contributes or is left over. -/
theorem perm_contributing {s : Sketch} (hcoming : s.coming = []) (hbelow : s.below = []) :
    (s.contributing ++ s.leftover).Perm s.instances := by
  rw [List.perm_iff_count]
  intro j
  have hpieces : s.head.pieces.reduceOption =
      s.result?.toList ++ (s.head.pieces.drop 1).reduceOption := by
    rw [result?]
    rcases s.head.pieces with _ | ⟨_ | i, pieces⟩ <;> rfl
  simp only [contributing, leftover, instances, hcoming, hbelow, hpieces, List.flatMap_singleton,
    List.nil_append, List.count_append]
  omega

end Sketch

/-! ## Sketches of machines -/

/-- An instance stands for its stamped tile. A composite has no label. -/
def Piece.Stands : Piece → Tile → Prop
  | some i, tile => tile = i.stamped
  | none, tile => tile.parameterBounds = none

theorem Piece.Stands.label {piece : Piece} {tile : Tile} (h : piece.Stands tile) :
    tile.parameterBounds = piece.bind Instance.label? := by
  cases piece with
  | none => exact h
  | some i => rw [h]; rfl

theorem Piece.labels_of_stands {pieces : List Piece} {tiles : List Tile}
    (h : List.Forall₂ Piece.Stands pieces tiles) :
    tiles.filterMap (·.parameterBounds) = pieces.reduceOption.filterMap Instance.label? := by
  induction h with
  | nil => rfl
  | @cons piece tile pieces tiles hpiece _ ih =>
    rw [List.filterMap_cons, hpiece.label, ih]
    cases piece with
    | none => rfl
    | some i =>
      rw [List.reduceOption_cons_of_some, List.filterMap_cons]
      rfl

structure Layer.Follows (layer : Layer) (frame : Frame) : Prop where
  pieces : List.Forall₂ Piece.Stands layer.pieces frame.operands
  operators : layer.operators = frame.operators

theorem Layer.follows_applyAll {ops : List Operator} {pieces : List Piece} {frame frame' : Frame}
    {tracker tracker' : BoundTracker} (hpieces : List.Forall₂ Piece.Stands pieces frame.operands)
    (happly : Frame.applyAll ops frame tracker = (.ok (), frame', tracker')) :
    Layer.Follows { pieces := (applyAll ops pieces).2 } frame' ∧
      tracker.addAll ((applyAll ops pieces).1.filterMap Instance.label?) = (.ok (), tracker') := by
  induction ops generalizing pieces frame tracker with
  | nil =>
    cases happly
    exact ⟨⟨hpieces, rfl⟩, rfl⟩
  | cons op ops ih =>
    obtain ⟨-, tile, middle, hop, happly⟩ := Frame.applyAll_cons_eq_ok happly
    obtain ⟨hunite, hadd⟩ := Operator.apply_eq_ok_iff.mp hop
    have hcomposite : Piece.Stands none tile := by
      obtain ⟨-, rfl⟩ := Operator.unite?_eq_some hunite
      exact Operator.parameterBounds_merge ..
    have htaken := List.rel_reverse (List.forall₂_take op.arity hpieces)
    rw [Piece.labels_of_stands htaken] at hadd
    obtain ⟨hfollows, hrest⟩ := ih (.cons hcomposite (List.forall₂_drop op.arity hpieces)) happly
    refine ⟨hfollows, ?_⟩
    rw [applyAll, List.filterMap_append, BoundTracker.addAll_append, hadd]
    exact hrest

namespace Sketch

section machine

variable {σ : Type}

/-- A sketch has what stands in the frames of a machine, and the labels that it has fed. -/
structure Follows (s : Sketch) (start : BoundTracker) (m : Machine σ) : Prop where
  head : s.head.Follows m.frames.head
  below : List.Forall₂ Layer.Follows s.below m.frames.below
  bounds : start.addAll (s.merged.filterMap Instance.label?) = (.ok (), m.bounds)
  dropped : ¬ Dropped m.diagnostics → s.dropped = []

namespace Follows

variable {s : Sketch} {start : BoundTracker} {m m' : Machine σ}

theorem warn (h : s.Follows start m) (warning : Warning) (span : Span) :
    s.Follows start (m.warn warning span) where
  head := h.head
  below := h.below
  bounds := h.bounds
  dropped := fun hds => h.dropped fun hdropped => hds (hdropped.append_left _)

theorem drain (h : s.Follows start m) (hdrain : m.drain = (.ok (), m')) :
    s.drain.Follows start m' := by
  obtain ⟨head, bounds, happly, rfl⟩ := Machine.drain_eq_ok hdrain
  rw [← h.head.operators] at happly
  obtain ⟨hhead, hfed⟩ := Layer.follows_applyAll h.head.pieces happly
  refine ⟨hhead, h.below, ?_, h.dropped⟩
  rw [Sketch.drain, List.filterMap_append, BoundTracker.addAll_append, h.bounds]
  exact hfed

theorem close (h : s.Follows start m) {span : Span} (hclose : m.closeGroup span = (.ok (), m')) :
    s.close.Follows start m' := by
  obtain ⟨drained, hdrain, hcases⟩ := Machine.closeGroup_eq_ok hclose
  have hdrained := h.drain hdrain
  rcases hcases with ⟨hnone, rfl⟩ | ⟨group, rest, hleave, rfl⟩
  · have hbelow : s.drain.below = [] := by
      have hempty := hdrained.below
      rwa [hnone, List.forall₂_nil_right_iff] at hempty
    rw [Sketch.close, leave, hbelow]
    exact hdrained.warn .unbalancedClose span
  · obtain ⟨rfl, hbelow⟩ := FrameStack.leave?_eq_some hleave
    have hlayers := hdrained.below
    rw [hbelow, List.forall₂_cons_right_iff] at hlayers
    obtain ⟨parent, below, hparent, hrest, hsketch⟩ := hlayers
    rw [Sketch.close, leave, hsketch]
    refine ⟨⟨?_, hparent.operators⟩, hrest, hdrained.bounds, ?_⟩
    · exact List.rel_append (List.forall₂_take 1 hdrained.head.pieces) hparent.pieces
    · intro hds
      have hkept : s.drain.dropped = [] :=
        hdrained.dropped fun hdropped => hds (hdropped.append_left _)
      -- A second tile in the group would have been reported.
      have hlength := hdrained.head.pieces.length_eq
      have hone : s.drain.head.pieces.drop 1 = [] := by
        match hoperands : drained.frames.head.operands with
        | [] | [_] =>
          rw [hoperands] at hlength
          exact List.drop_eq_nil_of_le (by simp [hlength])
        | tile :: other :: others => exact absurd (Frame.dropped_of_operands hoperands _) hds
      rw [hkept, hone]
      rfl

theorem closeOpen (h : s.Follows start m) {stop : Span} {n : Nat}
    (hclose : m.closeOpen stop n = (.ok (), m')) : (Sketch.close^[n] s).Follows start m' := by
  induction n generalizing s m with
  | zero =>
    cases hclose
    exact h
  | succ n ih =>
    obtain ⟨u, middle, hgroup, hclose⟩ := Attempt.andThen_eq_ok hclose
    rw [Function.iterate_succ_apply]
    exact ih ((h.warn .unclosedOpen _).close hgroup) hclose

variable [TileSource σ]

theorem step (h : s.Follows start m) {lexeme : Lexeme} (hreference : lexeme.token.reference? = none)
    (hstep : m.step lexeme = (.ok (), m')) :
    (s.step lexeme.token).Follows start m' ∧ (s.step lexeme.token).coming = s.coming := by
  rcases lexeme with ⟨token, span⟩
  cases token with
  | tile name cls param => cases hreference
  | operator op =>
    cases hstep
    exact ⟨⟨⟨h.head.pieces, congrArg (op :: ·) h.head.operators⟩, h.below, h.bounds, h.dropped⟩,
      rfl⟩
  | openParen =>
    cases hstep
    exact ⟨⟨⟨.nil, rfl⟩, .cons h.head h.below, h.bounds, h.dropped⟩, rfl⟩
  | closeParen => exact ⟨h.close hstep, s.coming_close⟩
  | openBracket | closeBracket | integer value =>
    cases hstep
    exact ⟨h.warn _ span, rfl⟩

theorem load (h : s.Follows start m) {reference : Reference} {span : Span} {tile : Tile}
    {source : σ} {loaded : List Tile} {n : Nat}
    (hserve : reference.serve m.source = (.ok tile, source)) (hnext : m.namespaces.StandsAt n)
    (hcoming : s.coming = number n (tile :: loaded))
    (hstep : m.step ⟨.tile reference.name reference.cls reference.param, span⟩ = (.ok (), m')) :
    s.load.Follows start m' ∧ m'.source = source ∧ m'.namespaces.StandsAt (n + 1) ∧
      s.load.coming = number (n + 1) loaded := by
  obtain ⟨made, after, hmade, rfl⟩ := Machine.step_tile_eq_ok reference hstep
  obtain ⟨hsame, rfl⟩ := Prod.mk.inj (hserve.symm.trans hmade)
  cases hsame
  rw [Sketch.load, hcoming]
  have hpiece := (hnext.stamped tile).symm
  exact ⟨⟨⟨.cons hpiece h.head.pieces, h.head.operators⟩, h.below, h.bounds, h.dropped⟩, rfl,
    hnext.advance 1, rfl⟩

theorem steps (h : s.Follows start m) {lexemes : List Lexeme} {loaded : List Tile} {source : σ}
    {n : Nat} (hserve : serveAll (references lexemes) m.source = (.ok loaded, source))
    (hnext : m.namespaces.StandsAt n) (hcoming : s.coming = number n loaded)
    (hsteps : m.steps lexemes = (.ok (), m')) :
    (s.steps lexemes).Follows start m' ∧ (s.steps lexemes).coming = [] := by
  induction lexemes generalizing s m loaded n with
  | nil =>
    cases hserve
    cases hsteps
    exact ⟨h, hcoming⟩
  | cons lexeme lexemes ih =>
    rcases lexeme with ⟨token, span⟩
    obtain ⟨u, middle, hstep, hmore⟩ := Attempt.andThen_eq_ok hsteps
    by_cases hreference : token.reference? = none
    · obtain ⟨hfollows, hsame⟩ := h.step hreference hstep
      obtain ⟨hsource, hnamespaces⟩ := Machine.source_namespaces_of_step hreference hstep
      have hrest : references (⟨token, span⟩ :: lexemes) = references lexemes :=
        List.filterMap_cons_none hreference
      rw [hrest, ← hsource] at hserve
      rw [← hnamespaces] at hnext
      exact ih hfollows hserve hnext (hsame.trans hcoming) hmore
    · cases token with
      | tile name cls param =>
        obtain ⟨tile, served, htile, hserve⟩ := Attempt.andThen_eq_ok hserve
        obtain ⟨rest, last, hrest, hserve⟩ := Attempt.andThen_eq_ok hserve
        cases hserve
        obtain ⟨hfollows, rfl, hnext, hlater⟩ := h.load htile hnext hcoming hstep
        exact ih hfollows hrest hnext hlater hmore
      | operator op | openParen | closeParen | openBracket | closeBracket | integer value =>
        exact absurd rfl hreference

theorem ofRun {lexemes : List Lexeme} {loaded : List Tile} {source : σ}
    {read closed drained : Machine σ} {stop : Span} (hframes : m.frames = {})
    (hserve : serveAll (references lexemes) m.source = (.ok loaded, source))
    (hsteps : m.steps lexemes = (.ok (), read))
    (hclose : read.closeOpen stop read.frames.below.length = (.ok (), closed))
    (hdrain : closed.drain = (.ok (), drained)) :
    (Sketch.ofRun lexemes (number m.namespaces.next.toNat loaded)).Follows m.bounds drained ∧
      (Sketch.ofRun lexemes (number m.namespaces.next.toNat loaded)).coming = [] := by
  have hstart : Sketch.Follows { coming := number m.namespaces.next.toNat loaded } m.bounds m := by
    refine ⟨?_, ?_, rfl, fun _ => rfl⟩
    · rw [hframes]
      exact ⟨.nil, rfl⟩
    · rw [hframes]
      exact .nil
  obtain ⟨hread, hcoming⟩ := hstart.steps hserve m.namespaces.standsAt_toNat rfl hsteps
  rw [← hread.below.length_eq] at hclose
  exact ⟨(hread.closeOpen hclose).drain hdrain, (coming_iterate_close _ _).trans hcoming⟩

omit [TileSource σ] in
theorem result (h : s.Follows start m) {tile : Tile} {stop : Span}
    (hresult : m.result stop = (.ok tile, m')) :
    (∀ i, s.result? = some i → tile = { i.stamped with parameterBounds := none }) ∧
      start.addAll (s.contributing.filterMap Instance.label?) = (.ok (), m'.bounds) ∧
      (¬ Dropped m'.diagnostics → s.leftover = []) := by
  obtain ⟨whole, rest, hoperands, rfl, hadd, hm⟩ := Machine.result_eq_ok hresult
  have hpieces := h.head.pieces
  rw [hoperands, List.forall₂_cons_right_iff] at hpieces
  obtain ⟨piece, pieces, hpiece, hrest, hsketch⟩ := hpieces
  have hpieceResult : s.result? = piece := by
    rw [result?, hsketch]
    rfl
  refine ⟨?_, ?_, ?_⟩
  · rintro i hi
    rw [hpieceResult] at hi
    rw [hi] at hpiece
    rw [hpiece]
  · have hlabels : piece.toList.filterMap Instance.label? = whole.parameterBounds.toList := by
      rw [hpiece.label]
      cases piece with
      | none => rfl
      | some i => cases hlabel : i.label? <;> simp [hlabel]
    rw [contributing, hpieceResult, List.filterMap_append, hlabels, BoundTracker.addAll_append,
      h.bounds]
    exact hadd
  · intro hds
    rw [hm] at hds
    have hkept := h.dropped fun hdropped => hds (hdropped.append_left _)
    have hnone : rest = [] := by
      by_contra hne
      rw [if_neg hne] at hds
      exact hds ⟨_, List.mem_append_right _ (List.mem_singleton_self _), rfl⟩
    rw [hnone, List.forall₂_nil_right_iff] at hrest
    rw [leftover, hkept, hsketch, hrest]
    rfl

end Follows

end machine

end Sketch

theorem filterMap_label?_number (n : Nat) (tiles : List Tile) :
    (number n tiles).filterMap Instance.label? = tiles.filterMap (·.parameterBounds) := by
  conv_rhs => rw [← map_tile_number n tiles, List.filterMap_map]
  rfl

theorem nodup_number (n : Nat) (tiles : List Tile) : (number n tiles).Nodup := by
  refine List.Nodup.of_map (·.ordinal) ?_
  rw [map_ordinal_number]
  exact List.nodup_range'

section run

variable {σ : Type} [TileSource σ] {source : σ} {namespaces : NamespaceCounter}
  {bounds : BoundTracker} {lexemes : List Lexeme} {stop : Nat} {tile : Tile} {m : Machine σ}

/-- The bounds of a run that starts without any come from the operands of its operators and from its
result if that is none of them. Each of these instances has its label counted once, and the others
count for nothing. Unless tiles are left over, the bounds are all intersections of one interval
chosen from the label of each reference; the order matters at most for the signs of zeros. -/
theorem Machine.run_bounds (hempty : bounds.current = [])
    (h : ({ source, namespaces, bounds } : Machine σ).run lexemes stop = (.ok tile, m)) :
    ∃ loaded : List Tile, serveAll (references lexemes) source = (.ok loaded, m.source) ∧
      let instances := number namespaces.next.toNat loaded
      let sketch := Sketch.ofRun lexemes instances
      instances.Nodup ∧ (sketch.contributing ++ sketch.leftover).Perm instances ∧
      (∀ i, sketch.result? = some i → tile = { i.stamped with parameterBounds := none }) ∧
      bounds.addAll (sketch.contributing.filterMap Instance.label?) = (.ok (), m.bounds) ∧
      (¬ Dropped m.diagnostics → sketch.leftover = [] ∧
        ∃ lists, (loaded.filterMap (·.parameterBounds)).mapM Bound.readLabel = .ok lists ∧
          (∃ ordered, ordered.Perm lists ∧ m.bounds.current = Bound.intersections ordered) ∧
          (m.bounds.current.map Bound.keys).Perm
            ((Bound.intersections lists).map Bound.keys)) := by
  obtain ⟨loaded, assembly, horigin⟩ := origin_of_run rfl h
  have hserve := horigin.served
  obtain ⟨u, read, hsteps, h⟩ := Attempt.andThen_eq_ok h
  obtain ⟨u, closed, hclose, h⟩ := Attempt.andThen_eq_ok h
  obtain ⟨u, drained, hdrain, hresult⟩ := Attempt.andThen_eq_ok h
  refine ⟨loaded, hserve, ?_⟩
  intro instances sketch
  obtain ⟨hfollows, hcoming⟩ : sketch.Follows bounds drained ∧ sketch.coming = [] :=
    Sketch.Follows.ofRun rfl hserve hsteps hclose hdrain
  have hbelow : sketch.below = [] := by
    have hlayers := hfollows.below
    rwa [below_of_drain hdrain, below_of_closeOpen hclose, List.drop_length,
      List.forall₂_nil_right_iff] at hlayers
  have hperm : (sketch.contributing ++ sketch.leftover).Perm instances :=
    (Sketch.perm_contributing hcoming hbelow).trans (Sketch.perm_ofRun lexemes instances)
  obtain ⟨htile, hfed, halone⟩ := hfollows.result hresult
  refine ⟨nodup_number _ _, hperm, htile, hfed, fun hkept => ⟨halone hkept, ?_⟩⟩
  rw [halone hkept, List.append_nil] at hperm
  obtain ⟨ordered, hordered, hcurrent⟩ := BoundTracker.current_addAll hfed hempty
  -- Labels are fed by operators, not in the order of the text.
  have hlabels : (loaded.filterMap (·.parameterBounds)).Perm
      (sketch.contributing.filterMap Instance.label?) := by
    rw [← filterMap_label?_number namespaces.next.toNat]
    exact (hperm.filterMap _).symm
  obtain ⟨lists, hlists, hsame⟩ := exists_mapM_of_perm hlabels hordered
  refine ⟨lists, hlists, ⟨ordered, hsame.symm, hcurrent⟩, ?_⟩
  rw [hcurrent]
  refine Bound.perm_keys_intersections hsame.symm fun l hl => ?_
  obtain ⟨label, -, hread⟩ := exists_of_mem_of_forall₂ (mapM_eq_ok_iff.mp hordered) hl
  exact Bound.isFinite_of_readLabel hread

end run

/-! ## Two references with labels -/

def rangeLexemes : List Lexeme :=
  [⟨.tile "lo" .accepting 0, ⟨0, 2⟩⟩, ⟨.operator .sizeMatched, ⟨3, 4⟩⟩, ⟨.openParen, ⟨5, 6⟩⟩,
    ⟨.tile "mid" .accepting 0, ⟨6, 9⟩⟩, ⟨.closeParen, ⟨9, 10⟩⟩]

def rangeRun : Attempt (Machine MemorySource) Tile :=
  ({ source := Session.rangeSource } : Machine MemorySource).run rangeLexemes 10

theorem Machine.run_bounds_range :
    ¬ Dropped rangeRun.2.diagnostics ∧
      ∃ lists, ["0:5|8:inf", "3:10"].mapM Bound.readLabel = .ok lists ∧
        (rangeRun.2.bounds.current.map Bound.keys).Perm
          ((Bound.intersections lists).map Bound.keys) := by
  have hvalue : rangeRun.1.toOption.isSome = true := by decide +kernel
  have hkept : rangeRun.2.diagnostics = [] := by decide +kernel
  obtain ⟨tile, htile⟩ := Option.isSome_iff_exists.mp hvalue
  have hrun : rangeRun = (.ok tile, rangeRun.2) := Attempt.eq_ok_of_toOption htile
  have hnone : ¬ Dropped rangeRun.2.diagnostics := by simp [hkept, Dropped]
  obtain ⟨loaded, hserve, -, -, -, -, hall⟩ := run_bounds rfl hrun
  obtain ⟨-, lists, hlists, -, hperm⟩ := hall hnone
  have hserved : (serveAll (references rangeLexemes) Session.rangeSource).1.toOption =
      some [Session.lowTile, Session.midTile] := by
    decide +kernel
  rw [hserve] at hserved
  obtain rfl : loaded = [Session.lowTile, Session.midTile] := Option.some.inj hserved
  exact ⟨hnone, lists, hlists, hperm⟩

end Tilework
