import Tilework.Proofs.Expression
import Tilework.Proofs.Forest

/-!
# Evaluating expression trees

The text of a tree has parentheses around every operator and its parts. A machine that runs its
tokens evaluates the tree from its leaves on. When all leaves are served and their labels can be
read, an evaluation gives the tile of the assembly of the leaves, or else fails because boundaries
do not fit.
-/

namespace Tilework

section evaluation

variable {σ : Type} [TileSource σ]

def Context.apply (c : Context σ) (op : Operator) (tiles : List Tile) : Attempt (Context σ) Tile :=
  let (result, bounds) := op.apply tiles c.bounds
  (result, { c with bounds })

omit [TileSource σ] in
theorem Context.drain_operator (c : Context σ) {op : Operator} {tiles : List Tile}
    (h : tiles.length = op.arity) :
    c.drain { tiles, operators := [op] } =
      (c.apply op tiles).andThen fun tile c => (.ok [tile], c) := by
  simp only [drain, apply, applyBackwards, Attempt.andThen_ok, applyLast, h, Nat.lt_irrefl,
    if_false, Nat.sub_self, List.drop_zero, List.take_zero, List.nil_append]
  rcases op.apply tiles c.bounds with ⟨_ | tile, bounds⟩ <;> rfl

namespace Expression

def tokens : Expression Reference → List Token
  | leaf reference => [.tile reference.name reference.cls reference.param]
  | sizeMatched left right =>
    .openParen :: left.tokens ++ .operator .sizeMatched :: right.tokens ++ [.closeParen]
  | singleEdge left right =>
    .openParen :: left.tokens ++ .operator .singleEdge :: right.tokens ++ [.closeParen]
  | fanOut root first second =>
    .openParen :: root.tokens ++ .operator .fanOut :: (first.tokens ++ second.tokens) ++
      [.closeParen]

/-- Load the leaves of a tree from left to right, and apply an operator behind its parts. -/
def evaluate : Expression Reference → Context σ → Attempt (Context σ) Tile
  | leaf reference, c => c.load reference
  | sizeMatched left right, c =>
    (left.evaluate c).andThen fun l c => (right.evaluate c).andThen fun r c =>
      c.apply .sizeMatched [l, r]
  | singleEdge left right, c =>
    (left.evaluate c).andThen fun l c => (right.evaluate c).andThen fun r c =>
      c.apply .singleEdge [l, r]
  | fanOut root first second, c =>
    (root.evaluate c).andThen fun r c => (first.evaluate c).andThen fun x c =>
      (second.evaluate c).andThen fun y c => c.apply .fanOut [r, x, y]

def evaluateAll : List (Expression Reference) → Context σ → Attempt (Context σ) (List Tile)
  | [], c => (.ok [], c)
  | tree :: trees, c =>
    (tree.evaluate c).andThen fun tile c =>
      (evaluateAll trees c).andThen fun tiles c => (.ok (tile :: tiles), c)

variable {tree : Expression Reference} {op : Operator} {parts : List (Expression Reference)}

theorem tokens_node {part : Expression Reference} (h : tree.node? = some (op, part :: parts)) :
    tree.tokens =
      .openParen :: part.tokens ++ .operator op :: parts.flatMap tokens ++ [.closeParen] := by
  cases tree <;> cases h <;> simp [tokens]

theorem evaluate_node (h : tree.node? = some (op, parts)) (c : Context σ) :
    tree.evaluate c = (evaluateAll parts c).andThen fun tiles c => c.apply op tiles := by
  cases tree <;> cases h <;>
    simp only [evaluate, evaluateAll, Attempt.andThen_assoc, Attempt.andThen_ok]

theorem length_evaluateAll {c c' : Context σ} {tiles : List Tile}
    (h : evaluateAll parts c = (.ok tiles, c')) : tiles.length = parts.length := by
  induction parts generalizing c tiles with
  | nil =>
    cases h
    rfl
  | cons part parts ih =>
    obtain ⟨tile, middle, htile, h⟩ := Attempt.andThen_eq_ok h
    obtain ⟨rest, last, hrest, h⟩ := Attempt.andThen_eq_ok h
    cases h
    rw [List.length_cons, List.length_cons, ih hrest]

end Expression

open Expression

/-! ## Running the tokens of a tree -/

theorem Machine.steps_singleton (m : Machine σ) (lexeme : Lexeme) :
    m.steps [lexeme] = m.step lexeme :=
  Attempt.andThen_ok_self _

theorem refines_tokensAll {parts : List (Expression Reference)}
    (hparts : ∀ part ∈ parts, ∀ {lexemes : List Lexeme}, lexemes.map (·.token) = part.tokens →
      ∀ (c : Context σ) (stack : FrameStack) (row : Row),
        Refines ((c.machine (stack.put row)).steps lexemes) (part.evaluate c)
          fun tile => stack.put { row with tiles := row.tiles ++ [tile] })
    {lexemes : List Lexeme} (h : lexemes.map (·.token) = parts.flatMap tokens) (c : Context σ)
    (stack : FrameStack) (row : Row) :
    Refines ((c.machine (stack.put row)).steps lexemes) (evaluateAll parts c)
      fun tiles => stack.put { row with tiles := row.tiles ++ tiles } := by
  induction parts generalizing lexemes c row with
  | nil =>
    obtain rfl := List.map_eq_nil_iff.mp h
    simp [Refines, evaluateAll, Machine.steps]
  | cons part parts ih =>
    obtain ⟨own, others, rfl, hown, hothers⟩ := List.map_eq_append_iff.mp h
    rw [Machine.steps_append, evaluateAll]
    refine (hparts part (by simp) hown c stack row).andThen ?_
    intro tile c _
    have hrest := ih (fun p hp => hparts p (by simp [hp])) hothers c
      { row with tiles := row.tiles ++ [tile] }
    simp only [List.append_assoc, List.singleton_append] at hrest
    exact refines_andThen_ok.mpr hrest

theorem Expression.refines_tokens (tree : Expression Reference) {lexemes : List Lexeme}
    (h : lexemes.map (·.token) = tree.tokens) (c : Context σ) (stack : FrameStack) (row : Row) :
    Refines ((c.machine (stack.put row)).steps lexemes) (tree.evaluate c)
      fun tile => stack.put { row with tiles := row.tiles ++ [tile] } := by
  induction tree using induction_node generalizing lexemes c stack row with
  | leaf reference =>
    obtain ⟨⟨_, span⟩, rfl, rfl⟩ := List.map_eq_singleton_iff.mp h
    rw [Machine.steps_singleton]
    exact c.refines_load stack row reference span
  | node tree op parts hnode ih =>
    have hlength := length_parts hnode
    obtain ⟨part, second, more, rfl⟩ := exists_parts hnode
    rw [tokens_node hnode] at h
    simp only [List.cons_append, List.append_assoc] at h
    -- The tokens: a bracket, the first part, the operator, the other parts, a bracket.
    obtain ⟨⟨_, opened⟩, inner, rfl, rfl, hinner⟩ := List.map_eq_cons_iff.mp h
    obtain ⟨own, behind, rfl, hown, hbehind⟩ := List.map_eq_append_iff.mp hinner
    obtain ⟨⟨_, span⟩, last, rfl, rfl, hlast⟩ := List.map_eq_cons_iff.mp hbehind
    obtain ⟨others, closing, rfl, hothers, hclosing⟩ := List.map_eq_append_iff.mp hlast
    obtain ⟨⟨_, closed⟩, rfl, rfl⟩ := List.map_eq_singleton_iff.mp hclosing
    have hopen : (c.machine (stack.put row)).step ⟨.openParen, opened⟩ =
        (.ok (), c.machine (((stack.put row).enter opened).put {})) := rfl
    have hevaluate : tree.evaluate c =
        (part.evaluate c).andThen fun tile c =>
          (evaluateAll (second :: more) c).andThen fun tiles c => c.apply op (tile :: tiles) := by
      rw [evaluate_node hnode, evaluateAll]
      simp only [Attempt.andThen_assoc, Attempt.andThen_ok]
    rw [Machine.steps, hopen, Attempt.andThen_ok, Machine.steps_append, hevaluate]
    refine (ih part (by simp) hown c _ {}).andThen ?_
    intro tile c _
    rw [Machine.steps, Context.refines_operator, Attempt.andThen_ok, Machine.steps_append]
    refine (refines_tokensAll (fun p hp => ih p (by simp [hp])) hothers c _ _).andThen ?_
    intro tiles c htiles
    have hcount : (tile :: tiles).length = op.arity := by
      rw [← hlength, List.length_cons, List.length_cons, length_evaluateAll htiles]
    rw [Machine.steps_singleton]
    have hclose := c.refines_close stack row opened closed ⟨tile :: tiles, [op]⟩
    rw [c.drain_operator hcount, Attempt.andThen_assoc] at hclose
    simp only [Attempt.andThen_ok, List.length_singleton, groupWarnings, Context.warn_nil,
      refines_andThen_ok] at hclose
    exact hclose

theorem Machine.run_tokens (tree : Expression Reference) {lexemes : List Lexeme}
    (h : lexemes.map (·.token) = tree.tokens) (c : Context σ) (stop : Nat) :
    Prod.map id context ((c.machine {}).run lexemes stop) =
      (tree.evaluate c).andThen fun tile c => c.result stop [tile] := by
  have hsteps : Refines ((c.machine {}).steps lexemes)
      ((tree.evaluate c).andThen fun tile c => (.ok { tiles := [tile] }, c)) (FrameStack.put {}) :=
    refines_andThen_ok.mpr (tree.refines_tokens h c {} {})
  rw [run_eq hsteps, Attempt.andThen_assoc, Attempt.andThen_assoc]
  rfl

/-! ## Evaluating an assembly -/

/-- Instances that references load one after another, stamped from the number of a counter on. -/
def Loads : List (Reference × Instance) → σ → NamespaceCounter → σ → Prop
  | [], source, _, source' => source = source'
  | (reference, i) :: rest, source, counter, source' =>
    counter.StandsAt i.ordinal ∧ ∃ middle, reference.serve source = (.ok i.tile, middle) ∧
      Loads rest middle (counter.advance 1) source'

theorem loads_append {xs ys : List (Reference × Instance)} {source source' : σ}
    {counter : NamespaceCounter} :
    Loads (xs ++ ys) source counter source' ↔
      ∃ middle, Loads xs source counter middle ∧
        Loads ys middle (counter.advance xs.length) source' := by
  induction xs generalizing source counter with
  | nil => simp [Loads]
  | cons x xs ih =>
    have hlength : counter.advance (xs.length + 1) = (counter.advance 1).advance xs.length := by
      rw [NamespaceCounter.advance_advance, Nat.add_comm]
    simp only [List.cons_append, Loads, ih, List.length_cons, hlength]
    constructor
    · rintro ⟨hstands, first, hserve, middle, hxs, hys⟩
      exact ⟨middle, ⟨hstands, first, hserve, hxs⟩, hys⟩
    · rintro ⟨middle, ⟨hstands, first, hserve, hxs⟩, hys⟩
      exact ⟨hstands, first, hserve, middle, hxs, hys⟩

theorem loads_of_serveAll {leaves : List (Reference × Instance)} {source source' : σ}
    {counter : NamespaceCounter} {n : Nat}
    (h : serveAll (leaves.map (·.1)) source = (.ok (leaves.map (·.2.tile)), source'))
    (hstands : counter.StandsAt n)
    (hnumber : leaves.map (·.2) = number n (leaves.map (·.2.tile))) :
    Loads leaves source counter source' := by
  induction leaves generalizing source counter n with
  | nil =>
    cases h
    rfl
  | cons leaf leaves ih =>
    obtain ⟨tile, middle, hserve, h⟩ := Attempt.andThen_eq_ok h
    obtain ⟨tiles, last, hrest, h⟩ := Attempt.andThen_eq_ok h
    simp only [List.map_cons, number, List.cons.injEq] at hnumber
    cases h
    exact ⟨by rwa [hnumber.1], middle, hserve, ih hrest (hstands.advance 1) hnumber.2⟩

/-- The context after references were loaded and labels fed. -/
def Context.after (c : Context σ) (source : σ) (count : Nat) (bounds : BoundTracker) : Context σ :=
  { c with source, namespaces := c.namespaces.advance count, bounds }

omit [TileSource σ] in
theorem Context.after_zero (c : Context σ) : c.after c.source 0 c.bounds = c := by
  rw [after, NamespaceCounter.advance_zero]

namespace Expression

section assembly

variable {tree : Expression (Reference × Instance)}
  {parts : List (Expression (Reference × Instance))} {source : σ} {bounds : BoundTracker}
  {tile : Tile} {tiles : List Tile}

theorem evaluateAll_of_assembled
    (hparts : ∀ part ∈ parts, ∀ {source : σ} {bounds : BoundTracker} {tile : Tile} {c : Context σ},
      Loads part.leaves c.source c.namespaces source →
      (part.map Prod.snd).assemble = some tile →
      c.bounds.addAll (part.map Prod.snd).labels = (.ok (), bounds) →
      (part.map Prod.fst).evaluate c = (.ok tile, c.after source part.leaves.length bounds))
    {c : Context σ} (hloads : Loads (parts.flatMap leaves) c.source c.namespaces source)
    (htiles : Assembled (parts.map (map Prod.snd)) tiles)
    (hfed : c.bounds.addAll ((parts.map (map Prod.snd)).flatMap labels) = (.ok (), bounds)) :
    evaluateAll (parts.map (map Prod.fst)) c =
      (.ok tiles, c.after source (parts.flatMap leaves).length bounds) := by
  induction parts generalizing c tiles with
  | nil =>
    cases hfed
    cases hloads
    cases tiles with
    | nil => exact congrArg (Prod.mk _) c.after_zero.symm
    | cons tile tiles => cases htiles
  | cons part parts ih =>
    cases tiles with
    | nil => cases htiles
    | cons tile tiles =>
      simp only [Assembled, List.map_cons, List.cons.injEq] at htiles
      obtain ⟨htile, hrest⟩ := htiles
      rw [List.flatMap_cons, loads_append] at hloads
      obtain ⟨middle, hown, hothers⟩ := hloads
      rw [List.map_cons, List.flatMap_cons, BoundTracker.addAll_append] at hfed
      obtain ⟨u, between, hfirst, hfed⟩ := Attempt.andThen_eq_ok hfed
      rw [List.map_cons, evaluateAll, hparts part (by simp) hown htile hfirst, Attempt.andThen_ok,
        ih (fun p hp => hparts p (by simp [hp])) (c := c.after middle part.leaves.length between)
          hothers hrest hfed]
      simp only [Context.after, Attempt.andThen_ok, List.flatMap_cons, List.length_append,
        NamespaceCounter.advance_advance]

omit [TileSource σ] in
theorem readable_labels
    (h : ∀ leaf ∈ tree.leaves, ∀ label ∈ leaf.2.tile.parameterBounds, Bound.Readable label) :
    ∀ label ∈ (tree.map Prod.snd).labels ++ (tree.map Prod.snd).label?.toList,
      Bound.Readable label := by
  intro label hlabel
  have hleaf : ∃ i ∈ (tree.map Prod.snd).leaves, i.tile.parameterBounds = some label := by
    rcases List.mem_append.mp hlabel with hfed | hown
    · exact exists_leaf_of_mem_labels hfed
    · exact exists_leaf_of_label? (Option.mem_toList.mp hown)
  obtain ⟨i, hi, hbounds⟩ := hleaf
  rw [leaves_map] at hi
  obtain ⟨leaf, hleaf, rfl⟩ := List.mem_map.mp hi
  exact h leaf hleaf label hbounds

/-- An assembly that assembles is what its tree evaluates to, when its labels can be fed. -/
theorem evaluate_of_assemble {c : Context σ}
    (hloads : Loads tree.leaves c.source c.namespaces source)
    (h : (tree.map Prod.snd).assemble = some tile)
    (hfed : c.bounds.addAll (tree.map Prod.snd).labels = (.ok (), bounds)) :
    (tree.map Prod.fst).evaluate c = (.ok tile, c.after source tree.leaves.length bounds) := by
  induction tree using induction_node generalizing c source tile bounds with
  | leaf a =>
    obtain ⟨reference, i⟩ := a
    obtain ⟨hstands, middle, hserve, rfl⟩ := hloads
    cases h
    cases hfed
    have hstamped : i.stamped = i.tile.stamp c.namespaces.next.toNat := hstands.stamped i.tile
    simp only [map, evaluate, Context.load, hserve, hstamped]
    rfl
  | node tree op parts hnode ih =>
    obtain ⟨tiles, htiles, hunite⟩ := (assemble_node (node?_map Prod.snd hnode)).mp h
    rw [labels_node (node?_map Prod.snd hnode), BoundTracker.addAll_append] at hfed
    obtain ⟨u, between, hinner, hown⟩ := Attempt.andThen_eq_ok hfed
    rw [leaves_node hnode] at hloads ⊢
    rw [evaluate_node (node?_map Prod.fst hnode), evaluateAll_of_assembled ih hloads htiles hinner,
      Attempt.andThen_ok, Context.apply]
    have happly : op.apply tiles between = (.ok tile, bounds) := by
      rw [Operator.apply_eq_ok_iff, htiles.filterMap_label?]
      exact ⟨hunite, hown⟩
    simp only [Context.after, happly]

theorem evaluateAll_of_not_assembled
    (hparts : ∀ part ∈ parts, ∀ {source : σ} {c : Context σ},
      Loads part.leaves c.source c.namespaces source →
      (∀ leaf ∈ part.leaves, ∀ label ∈ leaf.2.tile.parameterBounds, Bound.Readable label) →
      (part.map Prod.snd).assemble = none →
      ∃ op detail c', (part.map Prod.fst).evaluate c = (.error (.mismatch op detail), c'))
    {c : Context σ} (hloads : Loads (parts.flatMap leaves) c.source c.namespaces source)
    (hreadable : ∀ part ∈ parts, ∀ leaf ∈ part.leaves, ∀ label ∈ leaf.2.tile.parameterBounds,
      Bound.Readable label)
    (hnone : ∀ tiles, ¬ Assembled (parts.map (map Prod.snd)) tiles) :
    ∃ op detail c',
      evaluateAll (parts.map (map Prod.fst)) c = (.error (.mismatch op detail), c') := by
  induction parts generalizing c with
  | nil => exact absurd rfl (hnone [])
  | cons part parts ih =>
    rw [List.flatMap_cons, loads_append] at hloads
    obtain ⟨middle, hown, hothers⟩ := hloads
    rw [List.map_cons, evaluateAll]
    cases htile : (part.map Prod.snd).assemble with
    | none =>
      obtain ⟨op, detail, c', herror⟩ :=
        hparts part (by simp) hown (hreadable part (by simp)) htile
      exact ⟨op, detail, c', by rw [herror]; rfl⟩
    | some tile =>
      have hlabels : ∀ label ∈ (part.map Prod.snd).labels, Bound.Readable label :=
        fun label hlabel =>
          readable_labels (hreadable part (by simp)) label (List.mem_append_left _ hlabel)
      obtain ⟨between, hfed⟩ := BoundTracker.exists_addAll hlabels c.bounds
      have hrest : ∀ tiles, ¬ Assembled (parts.map (map Prod.snd)) tiles := by
        intro tiles htiles
        refine hnone (tile :: tiles) ?_
        rw [Assembled, List.map_cons, List.map_cons, htile, htiles]
        rfl
      obtain ⟨op, detail, c', herror⟩ := ih (fun p hp => hparts p (by simp [hp]))
        (c := c.after middle part.leaves.length between) hothers
        (fun p hp => hreadable p (by simp [hp])) hrest
      refine ⟨op, detail, c', ?_⟩
      rw [evaluate_of_assemble hown htile hfed, Attempt.andThen_ok, herror]
      rfl

theorem evaluate_of_not_assemble {c : Context σ}
    (hloads : Loads tree.leaves c.source c.namespaces source)
    (hreadable : ∀ leaf ∈ tree.leaves, ∀ label ∈ leaf.2.tile.parameterBounds, Bound.Readable label)
    (h : (tree.map Prod.snd).assemble = none) :
    ∃ op detail c', (tree.map Prod.fst).evaluate c = (.error (.mismatch op detail), c') := by
  induction tree using induction_node generalizing c source with
  | leaf a => cases h
  | node tree op parts hnode ih =>
    rw [leaves_node hnode] at hloads
    have hreadable_parts : ∀ part ∈ parts, ∀ leaf ∈ part.leaves,
        ∀ label ∈ leaf.2.tile.parameterBounds, Bound.Readable label := by
      intro part hp leaf hleaf
      refine hreadable leaf ?_
      rw [leaves_node hnode]
      exact List.mem_flatMap.mpr ⟨part, hp, hleaf⟩
    rw [evaluate_node (node?_map Prod.fst hnode)]
    -- Either the operator does not fit its parts, or one of the parts fails before it.
    by_cases hassembled : ∃ tiles, Assembled (parts.map (map Prod.snd)) tiles
    · obtain ⟨tiles, htiles⟩ := hassembled
      have hlabels : ∀ label ∈ (parts.map (map Prod.snd)).flatMap labels, Bound.Readable label := by
        intro label hlabel
        obtain ⟨part, hpart, hlabel⟩ := List.mem_flatMap.mp hlabel
        obtain ⟨part, hp, rfl⟩ := List.mem_map.mp hpart
        exact readable_labels (hreadable_parts part hp) label (List.mem_append_left _ hlabel)
      obtain ⟨between, hfed⟩ := BoundTracker.exists_addAll hlabels c.bounds
      rw [evaluateAll_of_assembled (fun _ _ => evaluate_of_assemble) hloads htiles hfed,
        Attempt.andThen_ok, Context.apply]
      have hunite : op.unite? tiles = none := by
        cases hunite : op.unite? tiles with
        | none => rfl
        | some tile =>
          rw [(assemble_node (node?_map Prod.snd hnode)).mpr ⟨tiles, htiles, hunite⟩] at h
          cases h
      have hlength : tiles.length = op.arity := by
        rw [← htiles.length_eq, List.length_map, length_parts hnode]
      obtain ⟨detail, happly⟩ := Operator.apply_of_unite?_eq_none hlength hunite
        (c.after source (parts.flatMap leaves).length between).bounds
      exact ⟨op, detail, _, by rw [happly]⟩
    · obtain ⟨op, detail, c', herror⟩ := evaluateAll_of_not_assembled ih hloads hreadable_parts
        fun tiles htiles => hassembled ⟨tiles, htiles⟩
      exact ⟨op, detail, c', by rw [herror]; rfl⟩

end assembly

end Expression

/-! ## Running an assembly -/

omit [TileSource σ] in
theorem Context.result_singleton {c : Context σ} {tile : Tile} {bounds : BoundTracker}
    (h : c.bounds.addAll tile.parameterBounds.toList = (.ok (), bounds)) (stop : Nat) :
    c.result stop [tile] = (.ok { tile with parameterBounds := none }, { c with bounds }) := by
  simp only [result, List.getLast?_singleton, List.length_singleton, textWarnings, warn_nil, h]
  rfl

theorem Machine.run_of_assemble {tree : Expression (Reference × Instance)} {c : Context σ}
    {lexemes : List Lexeme} {source : σ} {whole : Tile} {bounds : BoundTracker}
    (htokens : lexemes.map (·.token) = (tree.map Prod.fst).tokens)
    (hloads : Loads tree.leaves c.source c.namespaces source)
    (h : (tree.map Prod.snd).assemble = some whole)
    (hfed : c.bounds.addAll ((tree.map Prod.snd).labels ++ (tree.map Prod.snd).label?.toList) =
      (.ok (), bounds)) (stop : Nat) :
    Prod.map id context ((c.machine {}).run lexemes stop) =
      (.ok { whole with parameterBounds := none }, c.after source tree.leaves.length bounds) := by
  rw [BoundTracker.addAll_append] at hfed
  obtain ⟨u, between, hinner, hown⟩ := Attempt.andThen_eq_ok hfed
  rw [← parameterBounds_assemble h] at hown
  rw [run_tokens _ htokens, evaluate_of_assemble hloads h hinner, Attempt.andThen_ok,
    Context.result_singleton (c := c.after source tree.leaves.length between) hown]
  rfl

omit [TileSource σ] in
theorem Machine.exists_run {α : Type} {attempt : Attempt (Machine σ) α}
    {result : Except ComposeFault α} {c : Context σ}
    (h : Prod.map id context attempt = (result, c)) :
    ∃ m, attempt = (result, m) ∧ m.context = c := by
  obtain ⟨hresult, hcontext⟩ := Prod.mk.inj h
  exact ⟨attempt.2, by rw [← hresult]; rfl, hcontext⟩

end evaluation

end Tilework
