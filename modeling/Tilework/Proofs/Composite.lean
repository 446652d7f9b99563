import Tilework.Proofs.Ledger
import Tilework.Proofs.Wiring
import Tilework.Session
import Tilework.Source.Memory

/-!
# Well-formed composites

While namespaces last, the locations of a composite are distinct. Its transitions end at them, and
its transition ids are distinct exactly when the edges of its joints stand apart: from each other,
and from the transitions of its leaves. They do when no id of a tile has an arrow. A document with
an arrow in an id can make them clash, although it is well formed itself.
-/

namespace Tilework

namespace Expression

variable {assembly : Assembly} {tile : Tile}

/-- No edge of a joint has the id of another one or of a transition of a leaf. -/
def EdgesApart (assembly : Assembly) : Prop :=
  (assembly.joints.map (·.id)).Nodup ∧ ∀ joint ∈ assembly.joints, joint.id ∉ assembly.transitionIds

theorem nodup_transitionIds_iff (h : assembly.assemble = some tile)
    (hnd : assembly.transitionIds.Nodup) : tile.transitionIds.Nodup ↔ assembly.EdgesApart := by
  rw [(transitionIds_assemble h).nodup_iff, List.nodup_append', EdgesApart]
  constructor
  · rintro ⟨-, hjoints, hdisjoint⟩
    exact ⟨hjoints, fun joint hj hid => hdisjoint hid (List.mem_map_of_mem hj)⟩
  · rintro ⟨hjoints, hapart⟩
    refine ⟨hnd, hjoints, ?_⟩
    intro id hid hedge
    obtain ⟨joint, hj, rfl⟩ := List.mem_map.mp hedge
    exact hapart joint hj hid

theorem exists_leaf_of_hasArrow {ids : Tile → List String}
    (hids : ∀ (ns : Nat) (tile : Tile), ids (tile.stamp ns) = (ids tile).map (stampId ns))
    {id : String} (hid : id ∈ assembly.leaves.flatMap fun i => ids i.stamped)
    (harrow : HasArrow id) : ∃ i ∈ assembly.leaves, ∃ x ∈ ids i.tile, HasArrow x := by
  obtain ⟨i, hi, hid⟩ := List.mem_flatMap.mp hid
  rw [Instance.stamped, hids] at hid
  obtain ⟨x, hx, rfl⟩ := List.mem_map.mp hid
  exact ⟨i, hi, x, hx, harrow.of_stampId⟩

/-- Without arrows in the ids of its tiles, the edges of an assembly stand apart. -/
theorem edgesApart_of_not_hasArrow (h : assembly.assemble = some tile)
    (hnd : assembly.locationIds.Nodup)
    (harrow : ∀ i ∈ assembly.leaves, ∀ id ∈ i.tile.locationIds ++ i.tile.transitionIds,
      ¬ HasArrow id) : assembly.EdgesApart := by
  have hexit : ∀ joint ∈ assembly.joints, ¬ HasArrow joint.exit := by
    intro joint hj hexit
    have hend : joint.exit ∈ assembly.ends := Joint.mem_ends.mpr (Or.inl (List.mem_map_of_mem hj))
    obtain ⟨i, hi, x, hx, hxarrow⟩ :=
      exists_leaf_of_hasArrow Tile.locationIds_stamp (ends_subset h hend) hexit
    exact harrow i hi x (List.mem_append_left _ hx) hxarrow
  have hexits : (assembly.joints.map (·.exit)).Nodup := by
    have hends := nodup_ends h hnd
    rw [ends, (Joint.ends_perm _).nodup_iff] at hends
    exact (List.nodup_append'.mp hends).1
  constructor
  · rw [List.Nodup, List.pairwise_map] at hexits ⊢
    apply hexits.imp_of_mem
    intro j k hj hk hne hid
    rcases Joint.hasArrow_of_id_eq hid hne with hjarrow | hkarrow
    · exact hexit j hj hjarrow
    · exact hexit k hk hkarrow
  · intro joint hj hid
    obtain ⟨i, hi, x, hx, hxarrow⟩ :=
      exists_leaf_of_hasArrow Tile.transitionIds_stamp hid joint.hasArrow_id
    exact harrow i hi x (List.mem_append_right _ hx) hxarrow

end Expression

section origin

variable {σ : Type} [TileSource σ] {start m : Machine σ} {lexemes : List Lexeme}
  {loaded : List Tile} {assembly : Assembly} {tile : Tile}

namespace Origin

theorem ordinal_of_mem_leaves (h : Origin start lexemes loaded assembly tile m) {i : Instance}
    (hi : i ∈ assembly.leaves) :
    start.namespaces.next.toNat ≤ i.ordinal ∧
      i.ordinal < start.namespaces.next.toNat + loaded.length :=
  ordinal_of_mem_number _ _ (h.leaves.subset hi)

/-- As many references as there are namespaces make instances with namespaces of their own. -/
theorem nodup_ns (h : Origin start lexemes loaded assembly tile m)
    (hroom : (references lexemes).length ≤ 2 ^ 32) : (assembly.leaves.map (·.ns)).Nodup := by
  rw [← length_serveAll h.served] at hroom
  exact nodup_ns_of_sublist _ _ hroom h.leaves

theorem wellFormed_of_mem_leaves (h : Origin start lexemes loaded assembly tile m)
    {i : Instance} (hi : i ∈ assembly.leaves) : i.tile.WellFormed :=
  wellFormed_of_serveAll h.served _ (tile_of_mem_number _ _ (h.leaves.subset hi))

theorem nodup_locationIds (h : Origin start lexemes loaded assembly tile m)
    (hroom : (references lexemes).length ≤ 2 ^ 32) : assembly.locationIds.Nodup :=
  Expression.nodup_locationIds (h.nodup_ns hroom) fun _ hi => h.wellFormed_of_mem_leaves hi

theorem locations (h : Origin start lexemes loaded assembly tile m)
    (hroom : (references lexemes).length ≤ 2 ^ 32) : tile.locationIds.Nodup := by
  have hids := Expression.locationIds_assemble h.assembled
  change tile.locationIds = assembly.locationIds at hids
  rw [hids]
  exact h.nodup_locationIds hroom

theorem endpoints (h : Origin start lexemes loaded assembly tile m) :
    ∀ t ∈ tile.transitions, t.source ∈ tile.locationIds ∧ t.target ∈ tile.locationIds := by
  have hends := Expression.endpoints_assemble h.assembled
  apply hends
  intro i hi t ht
  obtain ⟨u, hu, rfl⟩ := List.mem_map.mp ht
  obtain ⟨hs, htarget⟩ := (h.wellFormed_of_mem_leaves hi).endpoints u hu
  rw [Instance.stamped, Tile.locationIds_stamp]
  exact ⟨List.mem_map_of_mem hs, List.mem_map_of_mem htarget⟩

/-- The tile of a run is well formed exactly when its edges stand apart. -/
theorem wellFormed_iff (h : Origin start lexemes loaded assembly tile m)
    (hroom : (references lexemes).length ≤ 2 ^ 32) : tile.WellFormed ↔ assembly.EdgesApart := by
  have hnd : assembly.transitionIds.Nodup :=
    Expression.nodup_transitionIds (h.nodup_ns hroom) fun i hi => h.wellFormed_of_mem_leaves hi
  have hiff := Expression.nodup_transitionIds_iff h.assembled hnd
  constructor
  · intro hw
    exact hiff.mp hw.transitions
  · intro hapart
    exact ⟨h.locations hroom, hiff.mpr hapart, h.endpoints⟩

end Origin

end origin

namespace Session

variable {σ : Type} [TileSource σ] {session session' : Session σ} {name expression : String}
  {c : Composition}

theorem exists_run_of_compose (h : session.compose name expression = (.ok c, session')) :
    ∃ m, session.machine.run (TokenStream.ofText session.catalog expression).lexemes
        expression.utf8ByteSize = (.ok c.tile, m) ∧
      c = {
        name, expression, tile := c.tile
        bounds := m.bounds.current
        diagnostics := m.diagnostics
        skipped := (TokenStream.ofText session.catalog expression).skipped } ∧
      session' = { session with
        source := m.source
        namespaces := m.namespaces
        bounds := (m.bounds.store name).reset } := by
  rw [compose] at h
  rcases hrun : session.machine.run (TokenStream.ofText session.catalog expression).lexemes
    expression.utf8ByteSize with ⟨fault | tile, m⟩
  · rw [hrun] at h
    cases h
  · rw [hrun] at h
    cases h
    exact ⟨m, rfl, rfl, rfl⟩

theorem compose_eq_ok (h : session.compose name expression = (.ok c, session')) :
    ∃ m, session.machine.run (TokenStream.ofText session.catalog expression).lexemes
        expression.utf8ByteSize = (.ok c.tile, m) ∧
      c.bounds = m.bounds.current ∧ c.diagnostics = m.diagnostics ∧
      session' = { session with
        source := m.source
        namespaces := m.namespaces
        bounds := (m.bounds.store name).reset } := by
  obtain ⟨m, hrun, hc, hsession⟩ := exists_run_of_compose h
  exact ⟨m, hrun, congrArg Composition.bounds hc, congrArg Composition.diagnostics hc, hsession⟩

theorem name_of_compose (h : session.compose name expression = (.ok c, session')) :
    c.name = name := by
  obtain ⟨m, -, hc, -⟩ := exists_run_of_compose h
  exact congrArg Composition.name hc

theorem compose_of_run {tile : Tile} {m : Machine σ}
    (h : session.machine.run (TokenStream.ofText session.catalog expression).lexemes
      expression.utf8ByteSize = (.ok tile, m)) (name : String) :
    ∃ session', session.compose name expression = (.ok {
      name, expression, tile
      bounds := m.bounds.current
      diagnostics := m.diagnostics
      skipped := (TokenStream.ofText session.catalog expression).skipped }, session') := by
  rw [compose, h]
  exact ⟨_, rfl⟩

/-- When a text has no more references than there are namespaces, its composite has distinct
locations, at which its transitions end. It passes its own check exactly when its edges stand apart,
as they do without arrows in the ids of the loaded tiles; otherwise a transition id repeats. -/
theorem validate_of_compose
    (hroom : (references (TokenStream.ofText session.catalog expression).lexemes).length ≤ 2 ^ 32)
    (h : session.compose name expression = (.ok c, session')) :
    ∃ (loaded : List Tile) (assembly : Assembly),
      serveAll (references (TokenStream.ofText session.catalog expression).lexemes)
        session.source = (.ok loaded, session'.source) ∧
      assembly.leaves.Sublist (number session.namespaces.next.toNat loaded) ∧
      assembly.assemble = some { c.tile with parameterBounds := assembly.label? } ∧
      (∀ tile ∈ loaded, tile.validate = .ok ()) ∧
      c.tile.locationIds.Nodup ∧
      (∀ t ∈ c.tile.transitions, t.source ∈ c.tile.locationIds ∧ t.target ∈ c.tile.locationIds) ∧
      (c.tile.validate = .ok () ↔ assembly.EdgesApart) ∧
      (¬ assembly.EdgesApart →
        ∃ id ∈ c.tile.transitionIds, c.tile.validate = .error (.duplicateTransition id)) ∧
      ((∀ tile ∈ loaded, ∀ id ∈ tile.locationIds ++ tile.transitionIds, ¬ HasArrow id) →
        c.tile.validate = .ok ()) := by
  obtain ⟨m, hrun, -, -, rfl⟩ := compose_eq_ok h
  obtain ⟨loaded, assembly, horigin⟩ := Machine.origin_of_run rfl hrun
  have hiff : c.tile.validate = .ok () ↔ assembly.EdgesApart :=
    c.tile.validate_eq_ok_iff.trans (horigin.wellFormed_iff hroom)
  refine ⟨loaded, assembly, horigin.served, horigin.leaves, horigin.assembled, ?_,
    horigin.locations hroom, horigin.endpoints, hiff, ?_, ?_⟩
  · intro tile htile
    exact tile.validate_eq_ok_iff.mpr (wellFormed_of_serveAll horigin.served tile htile)
  · intro hclash
    exact Tile.validate_eq_error (horigin.locations hroom) horigin.endpoints
      fun hok => hclash (hiff.mp hok)
  · intro harrow
    apply hiff.mpr
    refine Expression.edgesApart_of_not_hasArrow horigin.assembled
      (horigin.nodup_locationIds hroom) ?_
    intro i hi
    exact harrow i.tile (tile_of_mem_number _ _ (horigin.leaves.subset hi))

end Session

/-- The id of the loop is the one that the edge from the first exit `o` gets. -/
def loopTile : Tile where
  name := "b"
  locations := [{ id := "i", role := some .entry }]
  transitions := [{ id := "o_0->i", source := "i", target := "i" }]

def exitTile : Tile where
  name := "a"
  locations := [{ id := "o", role := some .exit }]

def arrowSource : MemorySource where
  tiles := [("a", .accepting, exitTile), ("b", .accepting, loopTile)]

def arrowCatalog : Catalog := ⟨[("a", .accepting), ("b", .accepting)]⟩

def arrowComposition : Composition where
  name := "r"
  expression := "a + b"
  tile := {
    name := "(a + b)"
    locations := [{ id := "o_0" }, { id := "i_1" }]
    transitions := [{ id := "o_0->i_1", source := "i_1", target := "i_1" },
      { id := "o_0->i_1", source := "o_0", target := "i_1" }] }
  bounds := []
  diagnostics := []
  skipped := []

def arrowRun : Attempt (Session MemorySource) Composition :=
  ({ source := arrowSource, catalog := arrowCatalog } : Session MemorySource).compose "r" "a + b"

theorem compose_arrow : arrowRun = (.ok arrowComposition, arrowRun.2) :=
  Attempt.eq_ok_of_toOption (by decide +kernel)

theorem validate_arrowComposition :
    arrowComposition.tile.validate = .error (.duplicateTransition "o_0->i_1") := by
  decide +kernel

theorem length_references_arrow :
    (references (TokenStream.ofText arrowCatalog "a + b").lexemes).length = 2 := by
  decide +kernel

theorem Session.validate_of_compose_arrow :
    ∃ assembly : Assembly,
      assembly.assemble = some { arrowComposition.tile with parameterBounds := assembly.label? } ∧
        arrowComposition.tile.locationIds.Nodup ∧ ¬ assembly.EdgesApart := by
  obtain ⟨loaded, assembly, -, -, hassembly, -, hnd, -, hiff, -, -⟩ :=
    Session.validate_of_compose (by simp [length_references_arrow]) compose_arrow
  refine ⟨assembly, hassembly, hnd, ?_⟩
  intro hapart
  have hok := hiff.mpr hapart
  rw [validate_arrowComposition] at hok
  cases hok

/-- Not every composite of well-formed tiles is well formed. -/
theorem Session.not_forall_validate_compose :
    ¬ ∀ (source : MemorySource) (catalog : Catalog) (name expression : String) (c : Composition)
        (session' : Session MemorySource), source.catalog = .ok catalog →
        (references (TokenStream.ofText catalog expression).lexemes).length ≤ 2 ^ 32 →
      ({ source, catalog } : Session MemorySource).compose name expression = (.ok c, session') →
        c.tile.validate = .ok () := by
  intro hall
  have hcatalog : arrowSource.catalog = .ok arrowCatalog := by decide +kernel
  have hroom : (references (TokenStream.ofText arrowCatalog "a + b").lexemes).length ≤ 2 ^ 32 := by
    simp [length_references_arrow]
  have hok := hall arrowSource arrowCatalog "r" "a + b" arrowComposition _ hcatalog hroom
    compose_arrow
  rw [validate_arrowComposition] at hok
  cases hok

end Tilework
