import Tilework.Text.Basic

/-!
# Trees of files

All files lie in one tree of directories. Every entry is known by its place, the list of names that
leads to it from the root. A path names a place by text: it is walked name by name, from the root if
it begins with a slash and else from the working directory, and only a directory can be walked on
from.
-/

namespace Tilework

inductive FileFault where
  | missing
  | notDirectory
  | isDirectory
  | noSpace
  | longName
  | nulInPath
  | notText
  /-- Another error of the system, in its words. -/
  | system (words : String)
deriving DecidableEq, Repr

def FileFault.message : FileFault → String
  | missing => "No such file or directory (os error 2)"
  | notDirectory => "Not a directory (os error 20)"
  | isDirectory => "Is a directory (os error 21)"
  | noSpace => "No space left on device (os error 28)"
  | longName => "File name too long (os error 36)"
  | nulInPath => "file name contained an unexpected NUL byte"
  | notText => "stream did not contain valid UTF-8"
  | system words => words

/-- The path of an entry below a directory. An absolute path replaces the directory. -/
def joinPath (directory path : String) : String :=
  if path.toList.head? = some '/' then path
  else if directory.toList.getLast?.all (· = '/') then directory ++ path
  else directory ++ "/" ++ path

inductive FileEntry where
  | file (bytes : ByteArray)
  /-- A file that can be neither read nor written. -/
  | locked (fault : FileFault)
  | directory
  /-- A device that stays empty: it takes in all that is written to it, or has room for nothing. -/
  | device (hasRoom : Bool)

def FileEntry.isFile : FileEntry → Bool
  | file _ | locked _ => true
  | directory | device _ => false

def FileEntry.text : FileEntry → Except FileFault String
  | file bytes =>
    match String.fromUTF8? bytes with
    | some text => .ok text
    | none => .error .notText
  | locked fault => .error fault
  | directory => .error .isDirectory
  | device _ => .ok ""

structure FileTree where
  /-- The place of the working directory. -/
  here : List String := []
  entries : List (List String × FileEntry) := []

namespace FileTree

def nameLimit : Nat := 255

def pathLimit : Nat := 4095

/-- What lies at a place. The root is a directory. -/
def entry? (tree : FileTree) (place : List String) : Option FileEntry :=
  if place = [] then some .directory else (tree.entries.find? (·.1 = place)).map (·.2)

/-- The place where the walk along a path starts, and the names on the way. -/
def route (tree : FileTree) (path : String) : List String × List (List Char) :=
  (if path.toList.head? = some '/' then [] else tree.here, Text.splitOn '/' path.toList)

/-- The place that one name leads to. An empty name and a dot stay where they are, two dots go up,
and at the root there is no way up. -/
def step (place : List String) (name : List Char) : List String :=
  if name = [] ∨ name = ['.'] then place
  else if name = ['.', '.'] then place.dropLast
  else place ++ [String.ofList name]

def descend (tree : FileTree) (place : List String) (name : List Char) :
    Except FileFault (List String) :=
  match tree.entry? place with
  | none => .error .missing
  | some .directory =>
    if nameLimit < (String.ofList name).utf8ByteSize then .error .longName
    else .ok (step place name)
  | some _ => .error .notDirectory

def checkPath (path : String) : Except FileFault Unit :=
  if '\x00' ∈ path.toList then .error .nulInPath
  else if path = "" then .error .missing
  else if pathLimit < path.utf8ByteSize then .error .longName
  else .ok ()

/-- The place that a path leads to, and what lies there. -/
def find (tree : FileTree) (path : String) : Except FileFault (List String × FileEntry) := do
  checkPath path
  let (start, names) := tree.route path
  let place ← names.foldlM tree.descend start
  match tree.entry? place with
  | some entry => return (place, entry)
  | none => throw .missing

def isFile (tree : FileTree) (path : String) : Bool :=
  match tree.find path with
  | .ok (_, entry) => entry.isFile
  | .error _ => false

/-- The names in a directory. There are none in what is no directory. -/
def children (tree : FileTree) (path : String) : List String :=
  match tree.find path with
  | .ok (place, .directory) =>
    (tree.entries.filter fun e => e.1 ≠ [] ∧ e.1.dropLast = place).filterMap (·.1.getLast?)
  | _ => []

def readText (tree : FileTree) (path : String) : Except FileFault String := do
  (← tree.find path).2.text

/-- Put an entry at a place, instead of what lies there. -/
def put (tree : FileTree) (place : List String) (entry : FileEntry) : FileTree :=
  { tree with entries := tree.entries.filter (·.1 ≠ place) ++ [(place, entry)] }

def putDirectory (tree : FileTree) (place : List String) : FileTree :=
  if (tree.entry? place).isSome then tree else tree.put place .directory

/-- Put an entry where a path leads, and directories on the way where there is nothing yet. -/
def install (tree : FileTree) (path : String) (entry : FileEntry) : FileTree :=
  let (start, names) := tree.route path
  let (tree, place) :=
    names.foldl (fun (tree, place) name => (tree.putDirectory place, step place name)) (tree, start)
  tree.put place entry

/-- Take away what lies where a path leads, and all below it. -/
def remove (tree : FileTree) (path : String) : FileTree :=
  let (start, names) := tree.route path
  let place := names.foldl step start
  { tree with entries := tree.entries.filter fun e => ! place.isPrefixOf e.1 }

/-- Write a text into a new file or instead of an old one. A path with a slash at its end can only
name a directory. -/
def writeText (tree : FileTree) (path text : String) : Except FileFault FileTree := do
  checkPath path
  let (start, names) := tree.route path
  match names.reverse.dropWhile (· = []) with
  | [] => throw .isDirectory
  | name :: above =>
    let directory ← above.reverse.foldlM tree.descend start
    let place ← tree.descend directory (if names.getLast? = some [] then ['.'] else name)
    match tree.entry? place with
    | some .directory => throw .isDirectory
    | some (.locked fault) => throw fault
    | some (.device true) => return tree
    | some (.device false) => if text = "" then return tree else throw .noSpace
    | _ => return tree.put place (.file text.toUTF8)

end FileTree

end Tilework
