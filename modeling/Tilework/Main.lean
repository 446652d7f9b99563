import Tilework.CommandLine.Run

/-!
# The tool

The documents under the tile directory are read, the report is made from them, and the report is
printed or written. A document that cannot be read is listed all the same, and its fault is told
when it is asked for.
-/

namespace Tilework.CommandLine

def systemFault (error : IO.Error) : FileFault :=
  match error with
  | .noFileOrDirectory .. => .missing
  | _ => .system (toString error)

/-- What lies at a path. What cannot be looked at is no file. -/
def readEntry (path : String) : IO FileEntry := do
  try
    match (← (← IO.FS.realPath path).metadata).type with
    | .dir => return .directory
    | .file =>
      try
        return .file (← IO.FS.readBinFile path)
      catch error => return .locked (systemFault error)
    | _ => return .device true
  catch _ => return .device false

def isDirectory (path : String) : IO Bool := do
  try
    return (← (← IO.FS.realPath path).metadata).type == .dir
  catch _ => return false

def readTree (root : String) : IO FileTree := do
  let mut tree : FileTree := {}
  for cls in TileClass.all do
    let directory := DirectorySource.classPath root cls
    if ← isDirectory directory then
      tree := tree.install directory .directory
      for entry in ← (← IO.FS.realPath directory).readDir do
        let path := joinPath directory entry.fileName
        tree := tree.install path (← readEntry path)
  return tree

def shortWording : DocumentWording := fun _ fault => fault.reason?.getD "syntax error"

def complain (message : String) : IO Unit := IO.eprintln (errorMark ++ message)

def deliver (options : Options) (report : String) : IO UInt32 := do
  try
    match options.output with
    | some path => IO.FS.writeFile path report
    | none => IO.print report
    return 0
  catch error =>
    complain (systemFault error).message
    return 2

def start (wording : DocumentWording) (subscriber : Subscriber) (options : Options) :
    IO UInt32 := do
  let (events, result) := options.report (← readTree options.tiles)
  IO.eprint (String.join ((events.filter options.shows).mapIdx subscriber))
  match result with
  | .ok report => deliver options report
  | .error failure =>
    complain (failure.message wording)
    return failure.exitCode.toUInt32

end Tilework.CommandLine

open Tilework.CommandLine in
def main (arguments : List String) : IO UInt32 := do
  match Options.ofArguments arguments with
  | .ok options =>
    let now ← IO.monoMsNow
    try
      start shortWording (.usual shortWording fun _ => toString now) options
    catch error =>
      complain (systemFault error).message
      return 2
  | .error .usage =>
    IO.eprint helpText
    return 2
  | .error .help =>
    IO.print helpText
    return 0
  | .error .version =>
    IO.print versionLine
    return 0
