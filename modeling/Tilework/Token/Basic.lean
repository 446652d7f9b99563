import Tilework.Tile.Basic

/-!
# Tokens of composition expressions

An expression refers to tiles, applies operators and groups with parentheses. There are three
operators, each with a number of operands and a symbol. A tile reference may carry a parameter in
brackets; brackets and integers that belong to no reference are tokens of their own, to which no
meaning is given. Tokens know where they stand in the text, in bytes.
-/

namespace Tilework

/-- Operators join tiles: `+` joins all exits of the left tile to all entries of the right one, `+1`
joins the first of each, and `++` joins the two exits of a root to the entries of two branches. -/
inductive Operator where
  | sizeMatched
  | singleEdge
  | fanOut
deriving DecidableEq, Repr

namespace Operator

def all : List Operator := [sizeMatched, singleEdge, fanOut]

def arity : Operator → Nat
  | sizeMatched => 2
  | singleEdge => 2
  | fanOut => 3

def symbol : Operator → String
  | sizeMatched => "+"
  | singleEdge => "+1"
  | fanOut => "++"

/-- The name of the connector that carries out an operator. -/
def connector : Operator → String
  | sizeMatched => "match_inout_size"
  | singleEdge => "only_one_out"
  | fanOut => "tree_op"

def ofSymbol? (symbol : String) : Option Operator := all.find? (·.symbol = symbol)

end Operator

/-- The bytes from `start` up to but not including `stop`. -/
structure Span where
  start : Nat
  stop : Nat
deriving DecidableEq, Repr, Inhabited

def Span.point (at_ : Nat) : Span := ⟨at_, at_⟩

inductive Token where
  | operator (op : Operator)
  | openParen
  | closeParen
  | tile (name : String) (cls : TileClass) (param : Nat)
  | openBracket
  | closeBracket
  | integer (value : Nat)
deriving DecidableEq, Repr

/-- The text of a token. The parameter zero is not written. -/
def Token.text : Token → String
  | operator op => op.symbol
  | openParen => "("
  | closeParen => ")"
  | tile name _ param => if param = 0 then name else name ++ "[" ++ toString param ++ "]"
  | openBracket => "["
  | closeBracket => "]"
  | integer value => toString value

structure Lexeme where
  token : Token
  span : Span
deriving DecidableEq, Repr

end Tilework
