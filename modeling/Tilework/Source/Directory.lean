import Tilework.File.Tree
import Tilework.Source.Basic
import Tilework.Tile.Document

/-!
# Tiles in directories

A directory source has one directory for each class, named for it, with a document for each tile of
the class. The catalog is made when the source is opened, from the names that are there; documents
are read when their tile is loaded. Random tiles may also come from generators.
-/

namespace Tilework

def readTile (files : FileTree) (path : String) : Except SourceFault Tile :=
  match files.readText path with
  | .error fault => .error (.unreadable path fault)
  | .ok text => (Tile.ofDocument text).mapError (.badDocument path)

structure DirectorySource where
  files : FileTree
  /-- The path of the directory that holds the directories of the classes. -/
  root : String
  catalog : Catalog := {}
  generators : Table Generator := []

namespace DirectorySource

def documentSuffix : String := ".json"

def documentFile (name : String) : String := name ++ documentSuffix

/-- The tile whose document a file holds. -/
def documentName? (file : String) : Option String :=
  let name := String.ofList (file.toList.take (file.length - documentSuffix.length))
  if name ≠ "" ∧ file = documentFile name then some name else none

def classPath (root : String) (cls : TileClass) : String := joinPath root cls.name

/-- The names of all documents of a class, in ascending order. -/
def documentNames (files : FileTree) (root : String) (cls : TileClass) : List String :=
  ascending ((files.children (classPath root cls)).filterMap documentName?)

/-- All names, class by class. -/
def listing (files : FileTree) (root : String) : List (String × TileClass) :=
  TileClass.all.flatMap fun cls => (documentNames files root cls).map fun name => (name, cls)

def ofFiles (files : FileTree) (root : String) : Except CatalogFault DirectorySource := do
  let catalog ← ({} : Catalog).insertAll (listing files root)
  return { files, root, catalog }

def register (source : DirectorySource) (name : String) (generator : Generator) :
    Except CatalogFault DirectorySource := do
  let catalog ← source.catalog.insert name .random
  return { source with catalog, generators := source.generators.put name generator }

def documentPath (source : DirectorySource) (name : String) (cls : TileClass) : String :=
  joinPath (classPath source.root cls) (documentFile name)

/-- Read the tile of a document. A tile without a name takes that of its document. -/
def readDocument (source : DirectorySource) (name : String) (cls : TileClass) :
    Except SourceFault Tile :=
  let path := source.documentPath name cls
  if source.files.isFile path then (readTile source.files path).map (·.named name)
  else .error (if cls = .random then .unsupported name else .notFound name cls)

def load (source : DirectorySource) (name : String) (cls : TileClass) (param : Nat) :
    Except SourceFault Tile × DirectorySource :=
  match (if cls = .random then synthesize? source.generators name param else none) with
  | some (tile, generators) => (.ok tile, { source with generators })
  | none => (source.readDocument name cls, source)

instance : TileSource DirectorySource := ⟨load⟩

end DirectorySource

end Tilework
