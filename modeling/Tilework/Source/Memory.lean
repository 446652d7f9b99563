import Tilework.Source.Basic

/-!
# Tiles in memory

A memory source holds tiles by name, each in one class, and generators. Putting a name again
replaces what it held.
-/

namespace Tilework

structure MemorySource where
  tiles : Table (TileClass × Tile) := []
  generators : Table Generator := []

namespace MemorySource

/-- Hold a tile. A tile without a name takes the one under which it is held. -/
def insert (source : MemorySource) (name : String) (cls : TileClass) (tile : Tile) : MemorySource :=
  { source with tiles := source.tiles.put name (cls, tile.named name) }

def register (source : MemorySource) (name : String) (generator : Generator) : MemorySource :=
  { source with generators := source.generators.put name generator }

def names (source : MemorySource) : List (String × TileClass) :=
  source.tiles.map (fun (name, cls, _) => (name, cls)) ++
    source.generators.keys.map fun name => (name, .random)

def catalog (source : MemorySource) : Except CatalogFault Catalog :=
  ({} : Catalog).insertAll source.names

/-- The tile held under a name, if it is held in the class asked for. -/
def stored (source : MemorySource) (name : String) (cls : TileClass) : Except SourceFault Tile :=
  match (source.tiles.get? name).filter (·.1 = cls) with
  | some (_, tile) => .ok tile
  | none => .error (if cls = .random then .unsupported name else .notFound name cls)

def load (source : MemorySource) (name : String) (cls : TileClass) (param : Nat) :
    Except SourceFault Tile × MemorySource :=
  match (if cls = .random then synthesize? source.generators name param else none) with
  | some (tile, generators) => (.ok tile, { source with generators })
  | none => (source.stored name cls, source)

instance : TileSource MemorySource := ⟨load⟩

end MemorySource

end Tilework
