import Tilework.Text.Basic

/-!
# Command line options

Arguments are read from left to right. An option takes its value from the same argument or from the
next one; a value of its own argument may not look like an option. Everything behind `--` is an
expression. The first argument that cannot be read ends the reading, and so do the requests for help
and for the version.
-/

namespace Tilework.CommandLine

inductive Emit where
  | tile
  | json
  | bounds
  | buildInfo
deriving DecidableEq, Repr

namespace Emit

def all : List Emit := [tile, json, bounds, buildInfo]

def name : Emit → String
  | tile => "tile"
  | json => "json"
  | bounds => "bounds"
  | buildInfo => "build-info"

def ofName? (name : String) : Option Emit := all.find? (·.name = name)

end Emit

structure Options where
  expressions : List String
  tiles : String
  output : Option String
  emit : Emit
  denyWarnings : Bool
  verbose : Bool
deriving DecidableEq, Repr

/-- Why arguments give no options. -/
inductive Ending where
  | usage
  | help
  | version
deriving DecidableEq, Repr

structure Arguments where
  expressions : List String := []
  tiles : Option String := none
  output : Option String := none
  emit : Option Emit := none
  denyWarnings : Bool := false
  verbose : Bool := false
deriving DecidableEq, Repr

namespace Arguments

inductive Key where
  | tiles
  | output
  | emit
deriving DecidableEq, Repr

def Key.ofLong? (name : List Char) : Option Key :=
  if name = "tiles".toList then some .tiles
  else if name = "output".toList then some .output
  else if name = "emit".toList then some .emit
  else none

def Key.ofShort? (letter : Char) : Option Key :=
  if letter = 't' then some .tiles else if letter = 'o' then some .output else none

def once {α : Type} (field : Option α) (value : α) : Except Ending (Option α) :=
  if field.isSome then .error .usage else .ok (some value)

def path (value : List Char) : Except Ending String :=
  if value = [] then .error .usage else .ok (String.ofList value)

def put (key : Key) (value : List Char) (a : Arguments) : Except Ending Arguments :=
  match key with
  | .tiles => do return { a with tiles := ← once a.tiles (← path value) }
  | .output => do return { a with output := ← once a.output (← path value) }
  | .emit =>
    match Emit.ofName? (String.ofList value) with
    | some emit => do return { a with emit := ← once a.emit emit }
    | none => .error .usage

def flag (name : List Char) (a : Arguments) : Except Ending Arguments :=
  if name = "help".toList then .error .help
  else if name = "version".toList then .error .version
  else if name = "deny-warnings".toList ∧ ! a.denyWarnings then .ok { a with denyWarnings := true }
  else if name = "verbose".toList ∧ ! a.verbose then .ok { a with verbose := true }
  else .error .usage

def addExpression (a : Arguments) (expression : String) : Arguments :=
  { a with expressions := a.expressions ++ [expression] }

inductive Form where
  | expression
  /-- Two dashes. -/
  | separator
  | flag (name : List Char)
  /-- An option whose value stands in the next argument. -/
  | option (key : Key)
  | pair (key : Key) (value : List Char)
  | unknown
deriving DecidableEq, Repr

/-- Two dashes, a name, and perhaps an equals sign and a value. -/
def Form.ofLong (body : List Char) : Form :=
  match Text.cutAt? '=' body with
  | some (name, value) =>
    match Key.ofLong? name with
    | some key => .pair key value
    | none => .unknown
  | none =>
    match Key.ofLong? body with
    | some key => .option key
    | none => .flag body

/-- One dash, a letter, and perhaps a value, with or without an equals sign. -/
def Form.ofShort (letter : Char) (rest : List Char) : Form :=
  match Key.ofShort? letter, rest with
  | some key, [] => .option key
  | some key, '=' :: value => .pair key value
  | some key, value => .pair key value
  | none, _ =>
    if letter = 'h' then .flag "help".toList
    else if letter = 'V' then .flag "version".toList
    else .unknown

def Form.of (argument : String) : Form :=
  match argument.toList with
  | ['-', '-'] => .separator
  | '-' :: '-' :: body => .ofLong body
  | '-' :: letter :: rest => .ofShort letter rest
  | _ => .expression

/-- Read arguments from left to right. `waiting` is an option whose value comes next. -/
def read (waiting : Option Key) : List String → Arguments → Except Ending Arguments
  | [], a => if waiting.isSome then .error .usage else .ok a
  | argument :: rest, a =>
    match waiting with
    | some key =>
      if Form.of argument = .expression then do read none rest (← a.put key argument.toList)
      else .error .usage
    | none =>
      match Form.of argument with
      | .expression => read none rest (a.addExpression argument)
      | .separator => .ok (rest.foldl addExpression a)
      | .flag name => do read none rest (← a.flag name)
      | .option key => read (some key) rest a
      | .pair key value => do read none rest (← a.put key value)
      | .unknown => .error .usage

end Arguments

/-- The options given by arguments. There is at least one expression. -/
def Options.ofArguments (arguments : List String) : Except Ending Options := do
  let a ← Arguments.read none arguments {}
  if a.expressions = [] then throw .usage
  return {
    expressions := a.expressions
    tiles := a.tiles.getD "tiles"
    output := a.output
    emit := a.emit.getD .tile
    denyWarnings := a.denyWarnings
    verbose := a.verbose }

end Tilework.CommandLine
