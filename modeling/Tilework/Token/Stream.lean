import Tilework.Token.Raw
import Tilework.Token.Word

/-!
# Token streams

A token stream holds the tokens of a text and the spans of everything that was skipped. Reading a
text never fails. A tile reference directly followed by an integer in brackets takes it as its
parameter.
-/

namespace Tilework

structure TokenStream where
  lexemes : List Lexeme := []
  skipped : List Span := []
deriving DecidableEq, Repr

namespace TokenStream

/-- What one piece of text contributes, and the place behind it. -/
def ofWordParts (start : Nat) : List WordPart → TokenStream
  | [] => {}
  | part :: parts =>
    let stop := start + utf8Length part.text
    let rest := ofWordParts stop parts
    match part with
    | .tile name cls => { rest with lexemes := ⟨.tile name cls 0, ⟨start, stop⟩⟩ :: rest.lexemes }
    | .skipped _ => { rest with skipped := ⟨start, stop⟩ :: rest.skipped }

/-- The greatest integer of an expression. Longer numbers are skipped. -/
def greatestInteger : Nat := 0xffffffffffffffff

def ofPiece (catalog : Catalog) (start : Nat) (piece : Raw) : TokenStream :=
  let span : Span := ⟨start, start + utf8Length piece.text⟩
  match piece with
  | .symbol s => { lexemes := [⟨s.token, span⟩] }
  | .digits cs =>
    let value := Nat.ofDigitChars 10 cs 0
    if value ≤ greatestInteger then { lexemes := [⟨.integer value, span⟩] }
    else { skipped := [span] }
  | .word cs => ofWordParts start (WordPart.ofWord catalog cs)
  | .blank _ => {}
  | .unknown _ => { skipped := [span] }

def append (s t : TokenStream) : TokenStream :=
  ⟨s.lexemes ++ t.lexemes, s.skipped ++ t.skipped⟩

def ofPieces (catalog : Catalog) (start : Nat) : List Raw → TokenStream
  | [] => {}
  | piece :: pieces =>
    (ofPiece catalog start piece).append
      (ofPieces catalog (start + utf8Length piece.text) pieces)

/-- Give each tile reference the integer in brackets behind it. -/
def attachParameters : List Lexeme → List Lexeme
  | ⟨.tile name cls _, span⟩ :: ⟨.openBracket, _⟩ :: ⟨.integer n, _⟩ :: ⟨.closeBracket, last⟩ ::
      rest =>
    ⟨.tile name cls n, ⟨span.start, last.stop⟩⟩ :: attachParameters rest
  | lexeme :: rest => lexeme :: attachParameters rest
  | [] => []

def ofText (catalog : Catalog) (text : String) : TokenStream :=
  let stream := ofPieces catalog 0 (Raw.split text.toList)
  { stream with lexemes := attachParameters stream.lexemes }

end TokenStream

end Tilework
