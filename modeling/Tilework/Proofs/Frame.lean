import Tilework.Machine.Run
import Tilework.Proofs.Reference

/-!
# What stands in frames

The tiles of all frames, in the order of the text, are those of the enclosing frames and then those
of the innermost one. Draining a frame turns the assemblies behind its tiles into fewer ones with
the same leaves. Closing a group drains it and hands its latest tile on; the diagnostics say so
when others are left behind.
-/

namespace Tilework

namespace Expression

variable {parts : List Assembly}

theorem assembled_append {tiles tiles' : List Tile} :
    Assembled parts (tiles ++ tiles') ↔
      ∃ ps qs, parts = ps ++ qs ∧ Assembled ps tiles ∧ Assembled qs tiles' := by
  rw [Assembled, List.map_append, List.map_eq_append_iff]
  rfl

theorem Assembled.append {ps qs : List Assembly} {tiles tiles' : List Tile}
    (h : Assembled ps tiles) (h' : Assembled qs tiles') : Assembled (ps ++ qs) (tiles ++ tiles') :=
  assembled_append.mpr ⟨ps, qs, rfl, h, h'⟩

theorem Assembled.length_eq {tiles : List Tile} (h : Assembled parts tiles) :
    parts.length = tiles.length := by
  simpa using congrArg List.length h

theorem assembled_singleton {tile : Tile} :
    Assembled parts [tile] ↔ ∃ part, parts = [part] ∧ part.assemble = some tile := by
  rw [Assembled, List.map_singleton, List.map_eq_singleton_iff]

end Expression

open Expression

namespace Frame

theorem applyAll_cons_eq_ok {op : Operator} {ops : List Operator} {frame frame' : Frame}
    {tracker tracker' : BoundTracker}
    (h : applyAll (op :: ops) frame tracker = (.ok (), frame', tracker')) :
    op.arity ≤ frame.operands.length ∧ ∃ tile middle,
      op.apply (frame.operands.take op.arity).reverse tracker = (.ok tile, middle) ∧
        applyAll ops { frame with
          operators := ops
          operands := tile :: frame.operands.drop op.arity } middle =
            (.ok (), frame', tracker') := by
  rw [applyAll] at h
  split at h
  · cases h
  next hlength =>
  split at h
  · next tile middle happly => exact ⟨Nat.not_lt.mp hlength, tile, middle, happly, h⟩
  · cases h

/-- Applying operators keeps the leaves of what stands in a frame, adds the operators, and feeds the
labels that leave it. -/
theorem applyAll_eq_ok {ops : List Operator} {frame frame' : Frame}
    {tracker tracker' : BoundTracker} {parts : List Assembly}
    (h : applyAll ops frame tracker = (.ok (), frame', tracker'))
    (hparts : Assembled parts frame.operands.reverse) :
    ∃ parts' fed, Assembled parts' frame'.operands.reverse ∧ frame'.operators = [] ∧
      parts'.flatMap leaves = parts.flatMap leaves ∧
      parts'.flatMap Expression.operators = parts.flatMap Expression.operators ++ ops ∧
      parts'.flatMap labels = parts.flatMap labels ++ fed ∧
      tracker.addAll fed = (.ok (), tracker') := by
  induction ops generalizing frame tracker parts with
  | nil =>
    cases h
    exact ⟨parts, [], hparts, rfl, rfl, by simp, by simp, rfl⟩
  | cons op ops ih =>
    obtain ⟨hlength, tile, middle, happly, h⟩ := applyAll_cons_eq_ok h
    obtain ⟨hunite, hadd⟩ := Operator.apply_eq_ok_iff.mp happly
    have hsplit : frame.operands.reverse =
        (frame.operands.drop op.arity).reverse ++ (frame.operands.take op.arity).reverse := by
      rw [← List.reverse_append, List.take_append_drop]
    rw [hsplit] at hparts
    obtain ⟨others, own, rfl, hothers, hown⟩ := assembled_append.mp hparts
    have harity : own.length = op.arity := by
      rw [hown.length_eq, List.length_reverse, List.length_take]
      omega
    obtain ⟨tree, hnode⟩ := exists_node harity
    have htree : tree.assemble = some tile := (assemble_node hnode).mpr ⟨_, hown, hunite⟩
    have hnext : Assembled (others ++ [tree]) (tile :: frame.operands.drop op.arity).reverse := by
      rw [List.reverse_cons]
      exact hothers.append (assembled_singleton.mpr ⟨tree, rfl, htree⟩)
    obtain ⟨parts', fed, hparts', hdrained, hleaves, hoperators, hlabels, hfed⟩ := ih h hnext
    refine ⟨parts', own.filterMap label? ++ fed, hparts', hdrained, ?_, ?_, ?_, ?_⟩
    · rw [hleaves, List.flatMap_append, List.flatMap_append, List.flatMap_singleton,
        leaves_node hnode]
    · rw [hoperators, List.flatMap_append, List.flatMap_append, List.flatMap_singleton,
        operators_node hnode]
      simp only [List.append_assoc, List.singleton_append]
    · rw [hlabels, List.flatMap_append, List.flatMap_append, List.flatMap_singleton,
        labels_node hnode]
      simp only [List.append_assoc]
    · rw [BoundTracker.addAll_append, ← hown.filterMap_label?, hadd]
      exact hfed

end Frame

namespace FrameStack

def tiles (stack : FrameStack) : List Tile :=
  stack.below.reverse.flatMap (·.operands.reverse) ++ stack.head.operands.reverse

def operators (stack : FrameStack) : List Operator :=
  stack.head.operators ++ stack.below.flatMap (·.operators)

variable (stack : FrameStack)

@[simp] theorem tiles_enter (span : Span) : (stack.enter span).tiles = stack.tiles := by
  simp [tiles, enter]

@[simp] theorem tiles_pushTile (tile : Tile) :
    (stack.mapHead (·.pushTile tile)).tiles = stack.tiles ++ [tile] := by
  simp [tiles, mapHead, Frame.pushTile]

@[simp] theorem tiles_pushOperator (op : Operator) :
    (stack.mapHead (·.pushOperator op)).tiles = stack.tiles := rfl

@[simp] theorem operators_enter (span : Span) :
    (stack.enter span).operators = stack.operators := rfl

@[simp] theorem operators_pushTile (tile : Tile) :
    (stack.mapHead (·.pushTile tile)).operators = stack.operators := rfl

@[simp] theorem operators_pushOperator (op : Operator) :
    (stack.mapHead (·.pushOperator op)).operators = op :: stack.operators := rfl

variable {stack}

theorem leave?_eq_none (h : stack.leave? = none) : stack.below = [] := by
  rw [leave?] at h
  split at h
  · assumption
  · cases h

theorem leave?_eq_some {group : Frame} {rest : FrameStack} (h : stack.leave? = some (group, rest)) :
    group = stack.head ∧ stack.below = rest.head :: rest.below := by
  rw [leave?] at h
  split at h
  · cases h
  · next hbelow =>
    cases h
    exact ⟨rfl, hbelow⟩

theorem tiles_leave {group : Frame} {rest : FrameStack} (h : stack.leave? = some (group, rest)) :
    stack.tiles = rest.tiles ++ group.operands.reverse := by
  obtain ⟨rfl, hbelow⟩ := leave?_eq_some h
  simp [tiles, hbelow]

theorem operators_leave {group : Frame} {rest : FrameStack}
    (h : stack.leave? = some (group, rest)) (hdrained : stack.head.operators = []) :
    stack.operators = (rest.mapHead (·.receive group)).operators := by
  obtain ⟨-, hbelow⟩ := leave?_eq_some h
  rw [operators, hdrained, hbelow, List.nil_append, List.flatMap_cons]
  rfl

theorem tiles_receive (stack : FrameStack) (group : Frame) :
    (stack.mapHead (·.receive group)).tiles = stack.tiles ++ group.operands.head?.toList := by
  cases hoperands : group.operands <;> simp [tiles, mapHead, Frame.receive, hoperands]

end FrameStack

namespace Machine

variable {σ : Type} {m m' : Machine σ}

theorem foldl_warn (warnings : List Warning) (span : Span) (m : Machine σ) :
    warnings.foldl (·.warn · span) m =
      { m with diagnostics := m.diagnostics ++ warnings.map (⟨·, span⟩) } := by
  induction warnings generalizing m with
  | nil => simp
  | cons warning warnings ih =>
    rw [List.foldl_cons, ih, warn, List.map_cons, List.append_assoc]
    rfl

theorem drain_eq_ok (h : m.drain = (.ok (), m')) :
    ∃ head bounds, Frame.applyAll m.frames.head.operators m.frames.head m.bounds =
        (.ok (), head, bounds) ∧
      m' = { m with frames := m.frames.mapHead fun _ => head, bounds } := by
  simp only [drain, Frame.drain, Prod.mk.injEq] at h
  obtain ⟨hresult, rfl⟩ := h
  refine ⟨_, _, ?_, rfl⟩
  rw [← hresult]

theorem below_of_drain (h : m.drain = (.ok (), m')) : m'.frames.below = m.frames.below := by
  obtain ⟨head, bounds, -, rfl⟩ := drain_eq_ok h
  rfl

theorem closeGroup_eq_ok {span : Span} (h : m.closeGroup span = (.ok (), m')) :
    ∃ middle, m.drain = (.ok (), middle) ∧
      (middle.frames.below = [] ∧ m' = middle.warn .unbalancedClose span ∨
        ∃ group rest, middle.frames.leave? = some (group, rest) ∧
          m' = { middle with
            frames := rest.mapHead (·.receive group)
            diagnostics := middle.diagnostics ++ group.warnings.map (⟨·, group.openedAt⟩) }) := by
  obtain ⟨u, middle, hdrain, h⟩ := Attempt.andThen_eq_ok h
  refine ⟨middle, hdrain, ?_⟩
  split at h
  · next hleave =>
    cases h
    exact Or.inl ⟨FrameStack.leave?_eq_none hleave, rfl⟩
  · next group rest hleave =>
    simp only [foldl_warn] at h
    cases h
    exact Or.inr ⟨group, rest, hleave, rfl⟩

theorem below_of_closeGroup {span : Span} (h : m.closeGroup span = (.ok (), m')) :
    m'.frames.below = m.frames.below.tail := by
  obtain ⟨middle, hdrain, hcases⟩ := closeGroup_eq_ok h
  rw [← below_of_drain hdrain]
  rcases hcases with ⟨hnone, rfl⟩ | ⟨group, rest, hleave, rfl⟩
  · rw [hnone]
    exact hnone
  · rw [(FrameStack.leave?_eq_some hleave).2]
    rfl

theorem source_namespaces_of_closeGroup {span : Span} (h : m.closeGroup span = (.ok (), m')) :
    m'.source = m.source ∧ m'.namespaces = m.namespaces := by
  obtain ⟨middle, hdrain, hcases⟩ := closeGroup_eq_ok h
  obtain ⟨head, bounds, -, rfl⟩ := drain_eq_ok hdrain
  rcases hcases with ⟨-, rfl⟩ | ⟨group, rest, -, rfl⟩ <;> exact ⟨rfl, rfl⟩

theorem below_of_closeOpen {stop : Span} {n : Nat} (h : m.closeOpen stop n = (.ok (), m')) :
    m'.frames.below = m.frames.below.drop n := by
  induction n generalizing m with
  | zero =>
    cases h
    rfl
  | succ n ih =>
    obtain ⟨u, middle, hgroup, h⟩ := Attempt.andThen_eq_ok h
    rw [ih h, below_of_closeGroup hgroup, List.drop_tail]
    rfl

theorem step_tile_eq_ok [TileSource σ] (reference : Reference) {span : Span}
    (h : m.step ⟨.tile reference.name reference.cls reference.param, span⟩ = (.ok (), m')) :
    ∃ tile source, reference.serve m.source = (.ok tile, source) ∧
      m' = { m with
        source
        namespaces := ⟨m.namespaces.next + 1⟩
        frames := m.frames.mapHead (·.pushTile (tile.stamp m.namespaces.next.toNat)) } := by
  obtain ⟨made, middle, hload, h⟩ := Attempt.andThen_eq_ok h
  cases h
  rw [load_eq] at hload
  split at hload
  · cases hload
  · next tile source hserve =>
    cases hload
    exact ⟨tile, source, hserve, rfl⟩

theorem source_namespaces_of_step [TileSource σ] {lexeme : Lexeme}
    (hreference : lexeme.token.reference? = none) (h : m.step lexeme = (.ok (), m')) :
    m'.source = m.source ∧ m'.namespaces = m.namespaces := by
  rcases lexeme with ⟨token, span⟩
  cases token with
  | tile name cls param => cases hreference
  | closeParen => exact source_namespaces_of_closeGroup h
  | operator op | openParen | openBracket | closeBracket | integer value =>
    cases h
    exact ⟨rfl, rfl⟩

theorem result_eq_ok {tile : Tile} {stop : Span} (h : m.result stop = (.ok tile, m')) :
    ∃ whole rest, m.frames.head.operands = whole :: rest ∧
      tile = { whole with parameterBounds := none } ∧
      m.bounds.addAll whole.parameterBounds.toList = (.ok (), m'.bounds) ∧
      m' = { m with
        bounds := m'.bounds
        diagnostics := m.diagnostics ++
          if rest = [] then [] else [⟨.leftover rest.length, stop⟩] } := by
  rw [result] at h
  split at h
  · cases h
  next whole rest hoperands =>
  have hwarn : (if rest.isEmpty then m else m.warn (.leftover rest.length) stop) =
      { m with
        diagnostics := m.diagnostics ++
          if rest = [] then [] else [⟨.leftover rest.length, stop⟩] } := by
    cases rest with
    | nil => simp
    | cons other others => rfl
  simp only [hwarn] at h
  cases hadd : m.bounds.addAll whole.parameterBounds.toList with
  | mk fed bounds =>
    rw [hadd] at h
    cases fed with
    | error fault => cases h
    | ok u =>
      cases h
      exact ⟨whole, rest, hoperands, rfl, hadd, rfl⟩

theorem finish_of_below_eq_nil (h : m.frames.below = []) (stop : Span) :
    m.finish stop = m.drain.andThen fun () m => m.result stop := by
  rw [finish, h]
  rfl

end Machine

end Tilework
