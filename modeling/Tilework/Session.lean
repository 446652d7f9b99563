import Tilework.Composition
import Tilework.Machine.Run
import Tilework.Token.Stream

/-!
# Sessions

A session runs expressions one after another. Namespaces go on from run to run, so that no two runs
share an id. The bounds of a successful run are stored under its name; in either case the next run
starts without bounds.
-/

namespace Tilework

structure Session (σ : Type) where
  source : σ
  catalog : Catalog
  namespaces : NamespaceCounter := {}
  bounds : BoundTracker := {}

namespace Session

variable {σ : Type}

def machine (session : Session σ) : Machine σ :=
  { source := session.source, namespaces := session.namespaces, bounds := session.bounds }

/-- Compose an expression and store its bounds under a name. -/
def compose [TileSource σ] (session : Session σ) (name expression : String) :
    Attempt (Session σ) Composition :=
  let stream := TokenStream.ofText session.catalog expression
  let (result, m) := session.machine.run stream.lexemes expression.utf8ByteSize
  let after (bounds : BoundTracker) : Session σ :=
    { session with source := m.source, namespaces := m.namespaces, bounds := bounds.reset }
  match result with
  | .error fault => (.error fault, after m.bounds)
  | .ok tile =>
    (.ok {
      name, expression, tile
      bounds := m.bounds.current
      diagnostics := m.diagnostics
      skipped := stream.skipped }, after (m.bounds.store name))

def bounds? (session : Session σ) (name : String) : Option (List Bound) := session.bounds.get? name

def resetBounds (session : Session σ) : Session σ :=
  { session with bounds := session.bounds.reset }

/-- Start the namespaces again. Later runs may then share ids with earlier ones. -/
def resetNamespaces (session : Session σ) : Session σ :=
  { session with namespaces := session.namespaces.reset }

end Session

end Tilework
