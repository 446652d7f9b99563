import Tilework.Proofs.Rendering
import Tilework.Proofs.Runs
import Tilework.Proofs.Writing

/-!
# All or nothing

The named expressions of a call are composed in one session. If some of them fail, the call tells of
the first that does; else, if warnings are denied, it tells of all that have some. In both cases
nothing is printed and no file changes. Otherwise one text tells about all runs, in their order, and
it is either printed or written.

What the call tells on failure is the only error line, unless there are line ends in it or in the
path of the tiles, which is logged with the progress. Names of runs may hold line ends, and so may
the words for a fault.
-/

namespace Tilework.CommandLine.Options

variable {options : Options} {files : FileTree} {failure : Failure} {text : String}
  {wording : DocumentWording} {subscriber : Subscriber}

/-- The path of the tiles is a line, or it is not logged. -/
def LogsLines (options : Options) : Prop := options.verbose = true → OneLine options.tiles

/-- A call that fails on account of its runs: nothing is printed, no file changes, and the message
is the only error line, if it is a line. -/
structure Refuses (options : Options) (wording : DocumentWording) (subscriber : Subscriber)
    (files : FileTree) (message : String) : Prop where
  exitCode : (options.run files).exitCode = 1
  errorLines : options.LogsLines → OneLine message →
    (options.run files).errorLines wording subscriber = [errorMark ++ message]
  printed : (options.run files).printed = ""
  files : (options.run files).files = files

/-- A call that succeeds: its text is printed, or it is written to the output file. -/
structure Delivers (options : Options) (wording : DocumentWording) (subscriber : Subscriber)
    (files : FileTree) (text : String) : Prop where
  exitCode : (options.run files).exitCode = 0
  errorLines : options.LogsLines → (options.run files).errorLines wording subscriber = []
  printed : (options.run files).printed = if options.output = none then text else ""
  files : match options.output with
    | none => (options.run files).files = files
    | some path => files.Written path text (options.run files).files

theorem errorLines_of_isPlain (hsubscriber : subscriber.WritesLines wording) {o : Outcome}
    (hlog : ∀ event ∈ o.log, event.IsPlain wording) :
    (o.failure = none → o.errorLines wording subscriber = []) ∧
      ∀ failure, o.failure = some failure → OneLine (failure.message wording) →
        o.errorLines wording subscriber = [errorMark ++ failure.message wording] := by
  have hnothing : markedLines "" = [] := by decide
  rw [Outcome.errorLines, Outcome.complaint, Subscriber.markedLines_log hsubscriber hlog]
  refine ⟨fun hnone => ?_, fun failure hfailure hline => ?_⟩
  · rw [hnone]
    exact hnothing
  · have hmark : OneLine errorMark := by decide
    have hmessage : OneLine (errorMark ++ failure.message wording) :=
      oneLine_append.mpr ⟨hmark, hline⟩
    have hlines := markedLines_append hmessage ""
    rw [String.append_empty, hnothing, List.append_nil] at hlines
    rw [hfailure]
    refine hlines.trans ?_
    simp [String.toList_append]

theorem refuses_of_report {events : List Event}
    (h : options.report files = (events, .error failure))
    (hcode : failure.exitCode = 1) (hsubscriber : subscriber.WritesLines wording)
    (hevents : options.LogsLines → OneLine (failure.message wording) →
      ∀ event ∈ events, options.shows event → event.IsPlain wording) :
    options.Refuses wording subscriber files (failure.message wording) := by
  have hrun : options.run files =
      { Outcome.failed failure files with log := events.filter options.shows } := by
    rw [run, h]
  refine ⟨by rw [hrun]; exact hcode, fun hpath hmessage => ?_, by rw [hrun]; rfl, by rw [hrun]; rfl⟩
  rw [hrun]
  refine (errorLines_of_isPlain hsubscriber fun event hevent => ?_).2 failure rfl hmessage
  obtain ⟨hevent, hshows⟩ := List.mem_filter.mp hevent
  exact hevents hpath hmessage event hevent hshows

theorem delivers_of_report {events : List Event} (h : options.report files = (events, .ok text))
    (hwrite : ∀ path ∈ options.output, ∃ files', files.writeText path text = .ok files')
    (hsubscriber : subscriber.WritesLines wording)
    (hevents : options.LogsLines →
      ∀ event ∈ events, options.shows event → event.IsPlain wording) :
    options.Delivers wording subscriber files text := by
  have hrun : options.run files =
      { options.deliver files text with log := events.filter options.shows } := by
    rw [run, h]
  have hlines (hnone : (options.deliver files text).failure = none) (hpath : options.LogsLines) :
      (options.run files).errorLines wording subscriber = [] := by
    rw [hrun]
    refine (errorLines_of_isPlain hsubscriber fun event hevent => ?_).1 hnone
    obtain ⟨hevent, hshows⟩ := List.mem_filter.mp hevent
    exact hevents hpath event hevent hshows
  cases houtput : options.output with
  | none =>
    have hdeliver : options.deliver files text = { exitCode := 0, printed := text, files } := by
      rw [deliver, houtput]
    rw [hdeliver] at hrun hlines
    exact ⟨by rw [hrun], hlines rfl, by rw [hrun, houtput]; rfl, by rw [hrun, houtput]⟩
  | some path =>
    obtain ⟨files', hwritten⟩ := hwrite path houtput
    have hdeliver : options.deliver files text = { exitCode := 0, files := files' } := by
      simp only [deliver, houtput, hwritten]
    rw [hdeliver] at hrun hlines
    exact ⟨by rw [hrun], hlines rfl, by rw [hrun, houtput]; rfl,
      by rw [hrun, houtput]; exact .of_writeText hwritten⟩

theorem report_of_open {source : DirectorySource}
    (hopen : DirectorySource.ofFiles files options.tiles = .ok source)
    (htiles : source.catalog.entries ≠ []) :
    let all := composeAll (namedExpressions options.expressions)
      ({ source, catalog := source.catalog } : Session DirectorySource)
    options.report files =
      (.catalogLoaded source.catalog.entries.length options.tiles :: all.1,
        all.2.bind fun runs =>
          (checkNoise options.denyWarnings runs).map fun _ => options.emit.report runs) := by
  intro all
  have hentries : ¬ source.catalog.entries.isEmpty = true := by
    simpa using htiles
  rw [report, hopen]
  simp only [if_neg hentries]
  refine congrArg (_, ·) ?_
  change all.2 >>= _ = _
  cases all.2 with
  | error failure => rfl
  | ok runs => cases checkNoise options.denyWarnings runs <;> rfl

theorem isPlain_of_mem_report {session : Session DirectorySource} {tiles : Nat} {event : Event}
    (hevent : event ∈ Event.catalogLoaded tiles options.tiles ::
      (composeAll (namedExpressions options.expressions) session).1)
    (hshows : options.shows event) (hpath : options.LogsLines)
    (hfault : ∀ name fault,
      firstFailure? (session.results (namedExpressions options.expressions)) = some (name, fault) →
        OneLine (fault.message wording)) : event.IsPlain wording := by
  rcases List.mem_cons.mp hevent with rfl | hevent
  · refine Event.isPlain_catalogLoaded (hpath ?_) tiles
    simpa [shows, Event.severity] using hshows
  · rcases isPlain_of_mem_composeAll hevent wording with hplain | ⟨name, fault, hfirst, rfl⟩
    · exact hplain
    · exact Event.isPlain_failed (hfault name fault hfirst) name

def shelfDocument (members : String) : FileEntry :=
  .file ("\x7b\"locations\":[\x7b" ++ members ++ "\x7d],\"transitions\":[]\x7d").toUTF8

def shelfFiles : FileTree where
  entries := [(["tiles"], .directory),
    (["tiles", "accepting"], .directory),
    (["tiles", "accepting", "start.json"], shelfDocument "\"id\":\"o\",\"role\":\"out\""),
    (["tiles", "ternary"], .directory),
    (["tiles", "ternary", "goal.json"], shelfDocument "\"id\":\"i\",\"role\":\"in\"")]

def shelfSource : DirectorySource where
  files := shelfFiles
  root := "tiles"
  catalog := ⟨[("start", .accepting), ("goal", .ternary)]⟩

theorem ofFiles_shelf : DirectorySource.ofFiles shelfFiles "tiles" = .ok shelfSource := by
  have hinsert : ({} : Catalog).insertAll (DirectorySource.listing shelfFiles "tiles") =
      .ok shelfSource.catalog := by
    decide +kernel
  rw [DirectorySource.ofFiles, hinsert]
  rfl

def shelfOptions (expressions : List String) (denyWarnings : Bool) : Options where
  expressions := expressions
  tiles := "tiles"
  output := some "out"
  emit := .tile
  denyWarnings := denyWarnings
  verbose := true

def shelfWording : DocumentWording := fun _ _ => "EOF while parsing a value at line 1 column 0"

def shelfSubscriber : Subscriber := .usual shelfWording fun _ => "2025-01-01T00:00:00.000000Z"

theorem writesLines_shelf : shelfSubscriber.WritesLines shelfWording :=
  Subscriber.writesLines_usual (fun _ => by decide) (fun _ => by decide)

def brokenShelf : List String := ["path=start + goal", "late=start + start", "none="]

def warnedShelf : List String := ["path=start + goal", "start ]", "goal ~"]

def shelfResults (expressions : List String) : List (String × Except ComposeFault Composition) :=
  ({ source := shelfSource, catalog := shelfSource.catalog } : Session DirectorySource).results
    (namedExpressions expressions)

def shelfText : String :=
  "tile (start + goal): 2 locations, 1 transitions\n  loc o_0\n  loc i_1\n" ++
  "  edge o_0->i_1: o_0 -> i_1\npath: unbounded\n" ++
  "tile start: 1 locations, 0 transitions\n  loc o_2 [out]\nrun1: unbounded\n" ++
  "tile goal: 1 locations, 0 transitions\n  loc i_3 [in]\nrun2: unbounded\n"

theorem results_shelf :
    firstFailure? (shelfResults brokenShelf) =
        some ("late", .mismatch .sizeMatched (.sizes "start" 1 "start" 0)) ∧
      firstFailure? (shelfResults warnedShelf) = none ∧
      noisyNames (shelfResults warnedShelf) = ["run1", "run2"] ∧
      Emit.tile.rendering (successes (shelfResults warnedShelf)) = shelfText := by
  decide +kernel

/-- The name of a run can hold a line end and, behind it, the mark of error lines. -/
def splitShelf : List String := ["a\ntilec: error: b="]

end Tilework.CommandLine.Options
