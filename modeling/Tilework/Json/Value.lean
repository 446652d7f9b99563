/-!
# Document values and their text

A value is written compactly, without any blank, or over several lines with two blanks for each
level. Members keep their order. Quotes, backslashes and control characters of a text are escaped.
-/

namespace Tilework.Json

inductive Value where
  | null
  | bool (value : Bool)
  /-- A number, by its numeral. -/
  | number (numeral : String)
  | text (value : String)
  | list (items : List Value)
  | object (members : List (String × Value))
deriving Repr, Inhabited

def escapeChar (c : Char) : List Char :=
  if c = '"' then ['\\', '"']
  else if c = '\\' then ['\\', '\\']
  else if c = '\x08' then ['\\', 'b']
  else if c = '\x0c' then ['\\', 'f']
  else if c = '\n' then ['\\', 'n']
  else if c = '\r' then ['\\', 'r']
  else if c = '\t' then ['\\', 't']
  else if c.toNat < 0x20 then
    ['\\', 'u', '0', '0', Nat.digitChar (c.toNat / 16), Nat.digitChar (c.toNat % 16)]
  else [c]

def quote (text : String) : List Char := '"' :: text.toList.flatMap escapeChar ++ ['"']

namespace Value

mutual

def compact : Value → List Char
  | null => "null".toList
  | bool value => (if value then "true" else "false").toList
  | number numeral => numeral.toList
  | text value => quote value
  | list items => '[' :: compactItems items ++ [']']
  | object members => '\x7b' :: compactMembers members ++ ['\x7d']

def compactItems : List Value → List Char
  | [] => []
  | [v] => v.compact
  | v :: w :: vs => v.compact ++ ',' :: compactItems (w :: vs)

def compactMembers : List (String × Value) → List Char
  | [] => []
  | [(key, v)] => quote key ++ ':' :: v.compact
  | (key, v) :: m :: ms => quote key ++ ':' :: v.compact ++ ',' :: compactMembers (m :: ms)

end

/-- A new line, indented by two blanks for each level. -/
def newline (depth : Nat) : List Char := '\n' :: List.replicate (2 * depth) ' '

mutual

def pretty (depth : Nat) : Value → List Char
  | list (v :: vs) => '[' :: prettyItems (depth + 1) (v :: vs) ++ newline depth ++ [']']
  | object (m :: ms) => '\x7b' :: prettyMembers (depth + 1) (m :: ms) ++ newline depth ++ ['\x7d']
  | list [] => ['[', ']']
  | object [] => ['\x7b', '\x7d']
  | null => "null".toList
  | bool value => (if value then "true" else "false").toList
  | number numeral => numeral.toList
  | text value => quote value

def prettyItems (depth : Nat) : List Value → List Char
  | [] => []
  | [v] => newline depth ++ pretty depth v
  | v :: w :: vs => newline depth ++ pretty depth v ++ ',' :: prettyItems depth (w :: vs)

def prettyMembers (depth : Nat) : List (String × Value) → List Char
  | [] => []
  | [(key, v)] => newline depth ++ quote key ++ ':' :: ' ' :: pretty depth v
  | (key, v) :: m :: ms =>
    newline depth ++ quote key ++ ':' :: ' ' :: pretty depth v ++
      ',' :: prettyMembers depth (m :: ms)

end

end Value

end Tilework.Json
