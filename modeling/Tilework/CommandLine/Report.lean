import Tilework.CommandLine.Options
import Tilework.Session

/-!
# Reports and logs

A report tells about all runs: by listings with their bounds, by the bounds alone, or by documents.
Events on the way to it go to a log. The form in which they are written there is given to them by a
subscriber.
-/

namespace Tilework

def Composition.boundsLine (c : Composition) : String :=
  if c.bounds.isEmpty then c.name ++ ": unbounded\n"
  else c.name ++ ": " ++ " ".intercalate (c.bounds.map Bound.text) ++ "\n"

def Span.text (span : Span) : String := toString span.start ++ ".." ++ toString span.stop

namespace CommandLine

def documentList (documents : List Json.Value) : String :=
  String.ofList ((Json.Value.list documents).pretty 0) ++ "\n"

def Emit.report (emit : Emit) (runs : List Composition) : String :=
  match emit with
  | tile => String.join (runs.map fun c => c.tile.listing ++ c.boundsLine)
  | json => documentList (runs.map Composition.toValue)
  | bounds => String.join (runs.map Composition.boundsLine)
  | buildInfo => documentList (runs.map Composition.buildInfo)

inductive Severity where
  | info
  | warn
deriving DecidableEq, Repr

inductive Event where
  | catalogLoaded (tiles : Nat) (root : String)
  | warned (diagnostic : Diagnostic)
  | failed (run : String) (fault : ComposeFault)
  | completed (run : String) (locations transitions bounds warnings : Nat)
deriving DecidableEq, Repr

/-- A value in an event: a number, a text between quotes, or words that stand as they are. -/
inductive Event.Value where
  | number (value : Nat)
  | quoted (text : String)
  | words (text : String)
deriving DecidableEq, Repr

namespace Event

def severity : Event → Severity
  | catalogLoaded _ _ | completed _ _ _ _ _ => .info
  | warned _ | failed _ _ => .warn

def message : Event → String
  | catalogLoaded _ _ => "catalog loaded"
  | warned diagnostic => diagnostic.warning.message
  | failed _ _ => "composition failed"
  | completed _ _ _ _ _ => "composition complete"

def fields (wording : DocumentWording) : Event → List (String × Value)
  | catalogLoaded tiles root => [("tiles", .number tiles), ("root", .words root)]
  | warned diagnostic =>
    [("code", .quoted diagnostic.warning.code), ("span", .words diagnostic.span.text)]
  | failed run fault => [("run", .quoted run), ("error", .words (fault.message wording))]
  | completed run locations transitions bounds warnings =>
    [("run", .quoted run), ("locations", .number locations), ("transitions", .number transitions),
      ("bounds", .number bounds), ("warnings", .number warnings)]

end Event

/-- The form that the events of a log are given. It may tell the time, so that an event has a form
at its place in the log only. -/
abbrev Subscriber := (place : Nat) → Event → String

def Severity.label : Severity → String
  | info => " INFO"
  | warn => " WARN"

def Event.Value.text : Event.Value → String
  | number value => toString value
  | quoted text => Text.quoted text
  | words text => text

/-- The usual form of an event is a line that begins with the time. -/
def Subscriber.usual (wording : DocumentWording) (time : Nat → String) : Subscriber :=
  fun place event =>
    time place ++ " " ++ event.severity.label ++ " " ++ event.message ++
      String.join ((event.fields wording).map fun field => " " ++ field.1 ++ "=" ++ field.2.text) ++
      "\n"

end CommandLine

/-- What the run of an expression tells the log. Warnings are told as they come, whatever becomes of
the run. -/
def Session.events {σ : Type} [TileSource σ] (session : Session σ) (name expression : String) :
    List CommandLine.Event :=
  let stream := TokenStream.ofText session.catalog expression
  let (result, m) := session.machine.run stream.lexemes expression.utf8ByteSize
  m.diagnostics.map .warned ++
    match result with
    | .error fault => [.failed name fault]
    | .ok tile =>
      [.completed name tile.locations.length tile.transitions.length m.bounds.current.length
        m.diagnostics.length]

end Tilework
