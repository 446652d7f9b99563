import Tilework.Diagnostic
import Tilework.Machine.Frame
import Tilework.Source.Basic
import Tilework.Tile.Stamp

/-!
# Runs

A machine goes through the tokens of an expression. A tile reference loads, checks and stamps a tile
for the innermost frame; an operator waits in that frame; a closing parenthesis drains the frame and
hands its result to the enclosing one. At the end of the text all groups are closed. A step that
fails ends the run and keeps the state in which the fault arose.
-/

namespace Tilework

structure Machine (σ : Type) where
  source : σ
  namespaces : NamespaceCounter := {}
  bounds : BoundTracker := {}
  frames : FrameStack := {}
  diagnostics : List Diagnostic := []

/-- The shape that the class promises, then the tile in itself. -/
def TileClass.check (cls : TileClass) (tile : Tile) : Except ShapeDefect Unit := do
  cls.checkShape tile
  tile.validate

def Frame.warnings (group : Frame) : List Warning :=
  match group.operands with
  | [] => [.emptyGroup]
  | [_] => []
  | _ :: rest => [.leftoverInGroup rest.length]

/-- A group hands its latest tile to the enclosing one, if it has any. -/
def Frame.receive (parent group : Frame) : Frame :=
  { parent with operands := group.operands.take 1 ++ parent.operands }

namespace Machine

variable {σ : Type}

def warn (m : Machine σ) (warning : Warning) (span : Span) : Machine σ :=
  { m with diagnostics := m.diagnostics ++ [⟨warning, span⟩] }

def load [TileSource σ] (m : Machine σ) (name : String) (cls : TileClass) (param : Nat) :
    Attempt (Machine σ) Tile :=
  match TileSource.load m.source name cls param with
  | (.error fault, source) => (.error (.source fault), { m with source })
  | (.ok tile, source) =>
    match cls.check tile with
    | .error defect => (.error (.malformed name defect), { m with source })
    | .ok () =>
      let (tile, namespaces) := m.namespaces.stamp tile
      (.ok tile, { m with source, namespaces })

def drain (m : Machine σ) : Attempt (Machine σ) Unit :=
  let (result, head, bounds) := m.frames.head.drain m.bounds
  (result, { m with frames := m.frames.mapHead fun _ => head, bounds })

/-- Drain the innermost frame. The result of a group goes to the enclosing frame. -/
def closeGroup (m : Machine σ) (span : Span) : Attempt (Machine σ) Unit :=
  m.drain.andThen fun () m =>
    match m.frames.leave? with
    | none => (.ok (), m.warn .unbalancedClose span)
    | some (group, frames) =>
      let m := { m with frames := frames.mapHead (·.receive group) }
      (.ok (), group.warnings.foldl (·.warn · group.openedAt) m)

def step [TileSource σ] (m : Machine σ) (lexeme : Lexeme) : Attempt (Machine σ) Unit :=
  match lexeme.token with
  | .tile name cls param =>
    (m.load name cls param).andThen fun tile m =>
      (.ok (), { m with frames := m.frames.mapHead (·.pushTile tile) })
  | .operator op => (.ok (), { m with frames := m.frames.mapHead (·.pushOperator op) })
  | .openParen => (.ok (), { m with frames := m.frames.enter lexeme.span })
  | .closeParen => m.closeGroup lexeme.span
  | .openBracket | .closeBracket | .integer _ =>
    (.ok (), m.warn (.strayToken lexeme.token) lexeme.span)

def steps [TileSource σ] : List Lexeme → Machine σ → Attempt (Machine σ) Unit
  | [], m => (.ok (), m)
  | lexeme :: lexemes, m => (m.step lexeme).andThen fun () m => steps lexemes m

/-- Close the innermost `n` groups, which the text leaves open, at the end of the text. -/
def closeOpen (stop : Span) : (n : Nat) → Machine σ → Attempt (Machine σ) Unit
  | 0, m => (.ok (), m)
  | n + 1, m =>
    ((m.warn .unclosedOpen m.frames.head.openedAt).closeGroup stop).andThen fun () m =>
      closeOpen stop n m

/-- The result is the latest tile. It still has a bound label if it was never merged. -/
def result (stop : Span) (m : Machine σ) : Attempt (Machine σ) Tile :=
  match m.frames.head.operands with
  | [] => (.error .empty, m)
  | tile :: rest =>
    let m := if rest.isEmpty then m else m.warn (.leftover rest.length) stop
    let (fed, bounds) := m.bounds.addAll tile.parameterBounds.toList
    (fed.map fun () => { tile with parameterBounds := none }, { m with bounds })

/-- The end of the text closes all groups and drains what stands outside of them. -/
def finish (stop : Span) (m : Machine σ) : Attempt (Machine σ) Tile :=
  (m.closeOpen stop m.frames.below.length).andThen fun () m =>
    m.drain.andThen fun () m => m.result stop

def run [TileSource σ] (lexemes : List Lexeme) (stop : Nat) (m : Machine σ) :
    Attempt (Machine σ) Tile :=
  (m.steps lexemes).andThen fun () m => m.finish (.point stop)

end Machine

end Tilework
