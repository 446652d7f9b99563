import Tilework.Catalog
import Tilework.File.Tree
import Tilework.Json.Fault
import Tilework.Table
import Tilework.Tile.Basic

/-!
# Tile sources

A source makes a fresh tile for every reference to one, or says which fault keeps it from that.
Making a tile may change the source, since random tiles come from generators, and what a generator
makes may depend on its earlier requests.
-/

namespace Tilework

inductive SourceFault where
  | notFound (name : String) (cls : TileClass)
  /-- A random tile that has neither a generator nor a template. -/
  | unsupported (name : String)
  | unreadable (path : String) (fault : FileFault)
  | badDocument (path : String) (fault : DocumentFault)
deriving DecidableEq, Repr

def SourceFault.message (wording : DocumentWording) : SourceFault → String
  | notFound name cls => "no " ++ cls.name ++ " tile named `" ++ name ++ "`"
  | unsupported name =>
    "cannot synthesise random tile `" ++ name ++ "`: no generator or template registered"
  | unreadable path fault => path ++ ": " ++ fault.message
  | badDocument path fault => path ++ ": invalid tile document: " ++ wording path fault

/-- `σ` is the state of the source. Only random tiles depend on the parameter. -/
class TileSource (σ : Type) where
  load : σ → (name : String) → TileClass → (param : Nat) → Except SourceFault Tile × σ

/-- A generator of random tiles. `make` is given the parameters of the earlier requests. -/
structure Generator where
  make : (earlier : List Nat) → (param : Nat) → Tile
  earlier : List Nat := []

def Generator.request (generator : Generator) (param : Nat) : Tile × Generator :=
  (generator.make generator.earlier param,
    { generator with earlier := generator.earlier ++ [param] })

def synthesize? (generators : Table Generator) (name : String) (param : Nat) :
    Option (Tile × Table Generator) :=
  (generators.get? name).map fun generator =>
    let (tile, generator) := generator.request param
    (tile.named name, generators.put name generator)

end Tilework
