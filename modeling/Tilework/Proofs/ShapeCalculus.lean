import Tilework.Proofs.Application
import Tilework.Proofs.Evaluation
import Tilework.Proofs.Wiring
import Tilework.Source.Memory

/-!
# The shape calculus

The shape of a tile is the number of its entries and of its exits. An operator is defined on shapes
that fit it, and so is a tree on the shapes of its leaves. Where leaves share no id, a tree has a
shape exactly when its leaves assemble, and then it is the shape of their tile; its edges can be
counted on shapes too. A machine that runs the tokens of a tree succeeds exactly when the tree has
a shape.
-/

namespace Tilework

structure Shape where
  ins : Nat
  outs : Nat
deriving DecidableEq, Repr

def Tile.shape (tile : Tile) : Shape := ⟨tile.entries.length, tile.exits.length⟩

namespace Operator

/-- The shape of the merged tile, if the shapes of the parts fit. -/
def shape? : Operator → List Shape → Option Shape
  | sizeMatched, [l, r] => if l.outs = r.ins then some ⟨l.ins, r.outs⟩ else none
  | singleEdge, [l, r] =>
    if 1 ≤ l.outs ∧ 1 ≤ r.ins then some ⟨l.ins + r.ins - 1, l.outs - 1 + r.outs⟩ else none
  | fanOut, [l, x, y] =>
    if l.outs = 2 ∧ x.ins = 1 ∧ y.ins = 1 then some ⟨l.ins, x.outs + y.outs⟩ else none
  | _, _ => none

/-- The number of edges that an operator adds between parts whose shapes fit. -/
def edgeCount : Operator → List Shape → Nat
  | sizeMatched, l :: _ => l.outs
  | sizeMatched, [] => 0
  | singleEdge, _ => 1
  | fanOut, _ => 2

end Operator

namespace Expression

/-- The shape of a tree over tiles. -/
def shape? : Expression Tile → Option Shape
  | leaf tile => some tile.shape
  | sizeMatched left right => do Operator.sizeMatched.shape? [← left.shape?, ← right.shape?]
  | singleEdge left right => do Operator.singleEdge.shape? [← left.shape?, ← right.shape?]
  | fanOut root first second => do
    Operator.fanOut.shape? [← root.shape?, ← first.shape?, ← second.shape?]

def edges : Expression Tile → Nat
  | leaf _ => 0
  | sizeMatched left right => left.edges + right.edges + (left.shape?.map Shape.outs).getD 0
  | singleEdge left right => left.edges + right.edges + 1
  | fanOut root first second => root.edges + first.edges + second.edges + 2

end Expression

namespace Operator

variable {op : Operator} {tiles : List Tile}

/-- An operator is defined on the shapes of tiles that fit it, and has the shape of what is left of
their boundaries. -/
theorem shape?_map_shape_of_fits (h : op.Fits tiles) :
    op.shape? (tiles.map Tile.shape) =
      some ⟨(op.entries tiles).length, (op.exits tiles).length⟩ := by
  unfold Fits at h
  split at h
  · next left right =>
    exact if_pos h
  · next left right =>
    obtain ⟨hexits, hentries⟩ := h
    refine (if_pos ⟨hexits, hentries⟩).trans ?_
    simp only [Operator.entries, Operator.exits, Tile.shape, List.length_append, List.length_tail,
      Option.some.injEq, Shape.mk.injEq, and_true]
    exact Nat.add_sub_assoc hentries _
  · next root first second =>
    refine (if_pos h).trans ?_
    simp [Operator.entries, Operator.exits, Tile.shape]
  · exact h.elim

theorem shape?_map_shape_of_not_fits (h : ¬ op.Fits tiles) :
    op.shape? (tiles.map Tile.shape) = none := by
  rcases op with _ | _ | _ <;> rcases tiles with _ | ⟨a, _ | ⟨b, _ | ⟨c, _ | ⟨d, tiles⟩⟩⟩⟩ <;>
    try rfl
  · exact if_neg h
  · exact if_neg h
  · exact if_neg h

theorem Planned.length_joints {joints : List Joint} (h : Planned op tiles joints) :
    joints.length = op.edgeCount (tiles.map Tile.shape) := by
  cases h with
  | sizeMatched hexits hentries =>
    rw [← List.length_map (·.exit), hexits]
    rfl
  | singleEdge hexits hentries => rfl
  | fanOut hexits hfirst hsecond => rfl

theorem Planned.shape_merge {joints : List Joint} (h : Planned op tiles joints)
    (hnd : (op.absorbAll tiles).locationIds.Nodup) :
    op.shape? (tiles.map Tile.shape) = some (op.merge tiles joints).shape := by
  rw [shape?_map_shape_of_fits h.fits, Tile.shape, h.entries_merge hnd, h.exits_merge hnd]

end Operator

theorem Instance.shape_stamped (i : Instance) : i.stamped.shape = i.tile.shape := by
  simp only [Tile.shape, Tile.entries, Tile.exits, stamped, Tile.boundary_stamp, List.length_map]

namespace Expression

theorem shape?_node {tree : Expression Tile} {op : Operator} {parts : List (Expression Tile)}
    (h : tree.node? = some (op, parts)) : tree.shape? = (parts.mapM shape?).bind op.shape? := by
  cases tree <;> cases h <;> simp [shape?, List.mapM_cons, Option.bind_assoc]

theorem edges_node {tree : Expression Tile} {op : Operator} {parts : List (Expression Tile)}
    {shapes : List Shape} (h : tree.node? = some (op, parts))
    (hshapes : parts.mapM shape? = some shapes) :
    tree.edges = (parts.map edges).sum + op.edgeCount shapes := by
  cases tree <;> cases h
  all_goals
    simp only [List.mapM_cons, List.mapM_nil, Option.bind_eq_bind, Option.bind_eq_some_iff,
      Option.pure_def, Option.some.injEq] at hshapes
    obtain ⟨shape, hshape, _, _, rfl⟩ := hshapes
    simp [edges, Operator.edgeCount, hshape, Nat.add_assoc]

variable {assembly : Assembly} {parts : List Assembly}

theorem mapM_shape?
    (h : ∀ part ∈ parts, (part.map Instance.tile).shape? = part.assemble.map Tile.shape) :
    (parts.map (map Instance.tile)).mapM shape? =
      (parts.mapM assemble).map (List.map Tile.shape) := by
  induction parts with
  | nil => rfl
  | cons part parts ih =>
    rw [List.map_cons, List.mapM_cons, List.mapM_cons, h part (by simp),
      ih fun p hp => h p (by simp [hp])]
    cases part.assemble with
    | none => rfl
    | some tile => cases parts.mapM assemble <;> rfl

/-- Where leaves share no id, an assembly has the shape of its tile. -/
theorem shape?_eq_assemble (hnd : assembly.locationIds.Nodup) :
    (assembly.map Instance.tile).shape? = assembly.assemble.map Tile.shape := by
  induction assembly using induction_node with
  | leaf i => simp [map, shape?, assemble, i.shape_stamped]
  | node assembly op parts hnode ih =>
    have heach := nodup_of_mem_parts hnode hnd
    rw [shape?_node (node?_map _ hnode), assemble_eq_bind hnode,
      mapM_shape? fun part hp => ih part hp (heach part hp)]
    cases htiles : parts.mapM assemble with
    | none => rfl
    | some tiles =>
      have hparts : Assembled parts tiles := mapM_assemble.mp htiles
      have habsorb : (op.absorbAll tiles).locationIds.Nodup := by
        rwa [hparts.locationIds_absorbAll hnode]
      rw [Option.map_some, Option.bind_some, Option.bind_some]
      cases hunite : op.unite? tiles with
      | none =>
        exact Operator.shape?_map_shape_of_not_fits (Operator.unite?_eq_none_iff_not_fits.mp hunite)
      | some tile =>
        obtain ⟨hplanned, rfl⟩ := Operator.unite?_eq_some hunite
        exact hplanned.shape_merge habsorb

theorem length_joints {tile : Tile} (h : assembly.assemble = some tile)
    (hnd : assembly.locationIds.Nodup) :
    assembly.joints.length = (assembly.map Instance.tile).edges := by
  induction h using assemble_induction with
  | leaf i => rfl
  | node assembly op parts tiles h hnode hparts hplanned ih =>
    have heach := nodup_of_mem_parts hnode hnd
    have hshapes : (parts.map (map Instance.tile)).mapM shape? = some (tiles.map Tile.shape) := by
      rw [mapM_shape? fun part hp => shape?_eq_assemble (heach part hp), mapM_assemble.mpr hparts]
      rfl
    have hlengths : parts.map (fun part => part.joints.length) =
        (parts.map (map Instance.tile)).map edges := by
      rw [List.map_map]
      apply List.map_congr_left
      intro part hp
      obtain ⟨t, -, ht⟩ := hparts.exists_tile hp
      exact ih part hp t ht (heach part hp)
    rw [joints_node hnode, hparts.filterMap, List.length_append, List.length_flatMap, hlengths,
      edges_node (node?_map _ hnode) hshapes, hplanned.length_joints]

theorem length_locations {tile : Tile} (h : assembly.assemble = some tile) :
    tile.locations.length = (assembly.leaves.map (·.tile.locations.length)).sum := by
  have hids := congrArg List.length (locationIds_assemble h)
  simpa [Tile.locationIds, locationIds, List.length_flatMap, Instance.stamped, Tile.stamp]
    using hids

theorem length_transitions {tile : Tile} (h : assembly.assemble = some tile)
    (hnd : assembly.locationIds.Nodup) :
    tile.transitions.length =
      (assembly.leaves.map (·.tile.transitions.length)).sum +
        (assembly.map Instance.tile).edges := by
  have hids := (transitionIds_assemble h).length_eq
  rw [← length_joints h hnd]
  simpa [Tile.transitionIds, transitionIds, List.length_flatMap, Instance.stamped, Tile.stamp]
    using hids

end Expression

theorem Expression.exists_numbered (tree : Expression (Reference × Tile)) (n : Nat) :
    ∃ numbered : Expression (Reference × Instance),
      (numbered.map fun leaf => (leaf.1, leaf.2.tile)) = tree ∧
        numbered.leaves.map (·.2) = number n (tree.leaves.map (·.2)) := by
  induction tree generalizing n with
  | leaf a => exact ⟨leaf (a.1, ⟨n, a.2⟩), rfl, rfl⟩
  | sizeMatched left right ihl ihr =>
    obtain ⟨l, rfl, hl⟩ := ihl n
    obtain ⟨r, rfl, hr⟩ := ihr (n + l.leaves.length)
    refine ⟨sizeMatched l r, rfl, ?_⟩
    simp [leaves, number_append, hl, hr]
  | singleEdge left right ihl ihr =>
    obtain ⟨l, rfl, hl⟩ := ihl n
    obtain ⟨r, rfl, hr⟩ := ihr (n + l.leaves.length)
    refine ⟨singleEdge l r, rfl, ?_⟩
    simp [leaves, number_append, hl, hr]
  | fanOut root first second ihr ihf ihs =>
    obtain ⟨r, rfl, hr⟩ := ihr n
    obtain ⟨x, rfl, hx⟩ := ihf (n + r.leaves.length)
    obtain ⟨y, rfl, hy⟩ := ihs (n + r.leaves.length + x.leaves.length)
    refine ⟨fanOut r x y, rfl, ?_⟩
    simp [leaves, number_append, hr, hx, hy, Nat.add_assoc]

variable {σ : Type} [TileSource σ]

def startTile : Tile where
  name := "start"
  parameterBounds := some "0:5"
  locations := [{ id := "o", role := some .exit }]

def relayTile : Tile where
  name := "relay"
  locations := [{ id := "i", role := some .entry }, { id := "o", role := some .exit }]
  transitions := [{ id := "t", source := "i", target := "o" }]

def pairSource : MemorySource where
  tiles := [("start", .accepting, startTile), ("relay", .accepting, relayTile)]

def pairTree : Expression (Reference × Tile) :=
  .sizeMatched (.leaf (⟨"start", .accepting, 0⟩, startTile))
    (.leaf (⟨"relay", .accepting, 0⟩, relayTile))

def pairLexemes : List Lexeme :=
  (pairTree.map Prod.fst).tokens.map fun token => ⟨token, .point 0⟩

end Tilework
