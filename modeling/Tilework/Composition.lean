import Tilework.Bound.Basic
import Tilework.Diagnostic
import Tilework.Tile.Document
import Tilework.Tile.Fingerprint

/-!
# Compositions

A composition is what a successful run leaves: the tile, its bounds, and what there was to warn
about. Its provenance tells whether another run gave the same tile for the same expression. It is
written as a document, as a whole or as the information of a build.
-/

namespace Tilework

def version : String := "0.3.1"

/-- What a result can be compared by. -/
structure Provenance where
  expressionHash : List UInt8
  tileFingerprint : List UInt8
deriving DecidableEq, Repr

def Provenance.of (expression : String) (tile : Tile) : Provenance :=
  ⟨textDigest expression, tile.fingerprint⟩

structure Composition where
  name : String
  expression : String
  tile : Tile
  bounds : List Bound
  diagnostics : List Diagnostic
  skipped : List Span
deriving DecidableEq, Repr

def Composition.provenance (c : Composition) : Provenance := .of c.expression c.tile

def Composition.isNoisy (c : Composition) : Bool :=
  ! c.diagnostics.isEmpty || ! c.skipped.isEmpty

open Json

def Span.toValue (span : Span) : Value :=
  .object [("start", .number (toString span.start)), ("end", .number (toString span.stop))]

def Bound.sideValue (side : Binary64) : Value :=
  if side.isFinite then .number side.documentText else .null

def Bound.toValue (bound : Bound) : Value :=
  .object [("is_nan", .bool bound.isFree), ("is_disjoint", .bool bound.isDisjoint),
    ("low", sideValue bound.low), ("high", sideValue bound.high)]

def Diagnostic.toValue (d : Diagnostic) : Value :=
  .object <| ("code", .text d.warning.code) :: ("span", d.span.toValue) ::
    ("message", .text d.warning.message) :: optionalMember "hint" d.warning.hint?

def Provenance.toValue (p : Provenance) : Value :=
  .object [("expression_hash", .text (Sha256.hex p.expressionHash)),
    ("tile_fingerprint", .text (Sha256.hex p.tileFingerprint)), ("tool_version", .text version)]

namespace Composition

def toValue (c : Composition) : Value :=
  .object [("name", .text c.name), ("expression", .text c.expression), ("tile", c.tile.toValue),
    ("bounds", .list (c.bounds.map Bound.toValue)),
    ("diagnostics", .list (c.diagnostics.map Diagnostic.toValue)),
    ("skipped", .list (c.skipped.map Span.toValue)), ("provenance", c.provenance.toValue)]

def buildInfo (c : Composition) : Value :=
  .object [("name", .text c.name), ("provenance", c.provenance.toValue)]

end Composition

end Tilework
