import Tilework.CommandLine.Report
import Tilework.Session
import Tilework.Source.Directory

/-!
# Running the command line

All expressions are composed in one session over the tiles of a directory. Either all of them
succeed and one report is written, or nothing is written and one failure is told.
-/

namespace Tilework.CommandLine

inductive Failure where
  | catalog (fault : CatalogFault)
  | noTiles (path : String)
  | run (name : String) (fault : ComposeFault)
  /-- Runs with warnings, where warnings are denied. -/
  | denied (names : List String)
  | output (fault : FileFault)
deriving DecidableEq, Repr

namespace Failure

def message (wording : DocumentWording) : Failure → String
  | catalog fault => fault.message
  | noTiles path => "no tiles found under " ++ path
  | run name fault => name ++ ": " ++ fault.message wording
  | denied names => "warnings denied in: " ++ ", ".intercalate names
  | output fault => fault.message

/-- Failures of the runs are told apart from failures around them. -/
def exitCode : Failure → Nat
  | run _ _ | denied _ => 1
  | catalog _ | noTiles _ | output _ => 2

end Failure

/-- The name and the expression of the argument at an index. What stands before the first equals
sign is the name, unless it is blank. -/
def splitNamed (index : Nat) (argument : String) : String × String :=
  let unnamed := ("run" ++ toString index, argument)
  match Text.cutAt? '=' argument.toList with
  | none => unnamed
  | some (name, expression) =>
    if Text.trim name = [] then unnamed
    else (String.ofList (Text.trim name), String.ofList expression)

/-- Compose named expressions one after another, up to the first that fails. -/
def composeAll {σ : Type} [TileSource σ] :
    List (String × String) → Session σ → List Event × Except Failure (List Composition)
  | [], _ => ([], .ok [])
  | (name, expression) :: rest, session =>
    let events := session.events name expression
    match session.compose name expression with
    | (.error fault, _) => (events, .error (.run name fault))
    | (.ok c, session) =>
      let (later, runs) := composeAll rest session
      (events ++ later, runs.map (c :: ·))

def namedExpressions (arguments : List String) : List (String × String) :=
  arguments.zipIdx.map fun (argument, index) => splitNamed index argument

def checkNoise (denied : Bool) (runs : List Composition) : Except Failure Unit :=
  let noisy := runs.filter (·.isNoisy)
  if denied ∧ ! noisy.isEmpty then .error (.denied (noisy.map (·.name))) else .ok ()

/-- The report on all runs over the tiles that lie in a tree of files, and the events on the way. -/
def Options.report (options : Options) (files : FileTree) : List Event × Except Failure String :=
  match DirectorySource.ofFiles files options.tiles with
  | .error fault => ([], .error (.catalog fault))
  | .ok source =>
    if source.catalog.entries.isEmpty then ([], .error (.noTiles options.tiles))
    else
      let session : Session DirectorySource := { source, catalog := source.catalog }
      let (events, runs) := composeAll (namedExpressions options.expressions) session
      (.catalogLoaded source.catalog.entries.length options.tiles :: events, do
        let runs ← runs
        checkNoise options.denyWarnings runs
        return options.emit.report runs)

/-- Progress is shown when it is asked for. Warnings are always shown. -/
def Options.shows (options : Options) (event : Event) : Bool :=
  options.verbose || event.severity = .warn

/-- What a call leaves: its exit code, its log, what it printed, and the files. -/
structure Outcome where
  exitCode : Nat
  log : List Event := []
  printed : String := ""
  failure : Option Failure := none
  files : FileTree

/-- A failure changes no file. -/
def Outcome.failed (failure : Failure) (files : FileTree) : Outcome :=
  { exitCode := failure.exitCode, failure := some failure, files }

def errorMark : String := "tilec: error: "

/-- What a call writes to the error channel: its log, and its failure behind the mark. -/
def Outcome.complaint (wording : DocumentWording) (subscriber : Subscriber) (o : Outcome) :
    String :=
  String.join (o.log.mapIdx subscriber) ++
    match o.failure with
    | none => ""
    | some failure => errorMark ++ failure.message wording ++ "\n"

/-- The report goes to the output file if there is one, and is printed otherwise. -/
def Options.deliver (options : Options) (files : FileTree) (report : String) : Outcome :=
  match options.output with
  | none => { exitCode := 0, printed := report, files }
  | some path =>
    match files.writeText path report with
    | .ok files => { exitCode := 0, files }
    | .error fault => .failed (.output fault) files

def Options.run (options : Options) (files : FileTree) : Outcome :=
  let (events, result) := options.report files
  let outcome := match result with
    | .ok report => options.deliver files report
    | .error failure => .failed failure files
  { outcome with log := events.filter options.shows }

def helpText : String :=
  "Tile composer — builds timed-automaton models from pre-built tiles\n\n" ++
  "Usage: tilec [OPTIONS] <EXPRESSIONS>...\n\n" ++
  "Arguments:\n" ++
  "  <EXPRESSIONS>...  Composition expressions, run in order in one session. `name=expr` names " ++
  "the run; otherwise runs are named run0, run1, ...\n\n" ++
  "Options:\n" ++
  "  -t, --tiles <TILES>    Tile directory (accepting/, binary/, ternary/, random/ " ++
  "subdirectories) [default: tiles]\n" ++
  "  -o, --output <OUTPUT>  Output file path (stdout when absent)\n" ++
  "      --emit <EMIT>      Output stage [default: tile] " ++
  "[possible values: tile, json, bounds, build-info]\n" ++
  "      --deny-warnings    Fail when a run produced warnings or skipped input\n" ++
  "      --verbose          Log composition progress (overridden by RUST_LOG)\n" ++
  "  -h, --help             Print help\n" ++
  "  -V, --version          Print version\n"

def versionLine : String := "tilec " ++ version ++ "\n"

/-- A call with arguments, in the working directory of a tree of files. -/
def call (arguments : List String) (files : FileTree) : Outcome :=
  match Options.ofArguments arguments with
  | .ok options => options.run files
  | .error .usage => { exitCode := 2, files }
  | .error .help => { exitCode := 0, printed := helpText, files }
  | .error .version => { exitCode := 0, printed := versionLine, files }

end Tilework.CommandLine
