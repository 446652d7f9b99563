import Tilework.Digest.Sha256
import Tilework.Tile.Basic

/-!
# Fingerprints

The canonical bytes of a tile list all its fields in order. Texts carry their length and lists
their number of elements in front, so that no two tiles share their bytes, except that an absent
text counts as an empty one. The fingerprint is the digest of these bytes.
-/

namespace Tilework

def littleEndian : Nat → Nat → List UInt8
  | 0, _ => []
  | n + 1, value => UInt8.ofNat value :: littleEndian n (value / 256)

def lengthBytes (n : Nat) : List UInt8 := littleEndian 8 n

def utf8Bytes (text : String) : List UInt8 := text.toUTF8.toList

def textBytes (text : String) : List UInt8 := lengthBytes text.utf8ByteSize ++ utf8Bytes text

/-- An absent text is written as an empty one. -/
def optionalBytes (text : Option String) : List UInt8 := textBytes (text.getD "")

def listBytes {α : Type} (bytes : α → List UInt8) (xs : List α) : List UInt8 :=
  lengthBytes xs.length ++ xs.flatMap bytes

def roleByte : Option Role → UInt8
  | none => 0
  | some .entry => 1
  | some .exit => 2

def Location.canonicalBytes (l : Location) : List UInt8 :=
  textBytes l.id ++ optionalBytes l.invariant ++ optionalBytes l.comment ++
    [if l.isFinal then 1 else 0, roleByte l.role]

def Transition.canonicalBytes (t : Transition) : List UInt8 :=
  textBytes t.id ++ textBytes t.source ++ textBytes t.target ++ optionalBytes t.guard ++
    optionalBytes t.assignment

namespace Tile

def canonicalBytes (tile : Tile) : List UInt8 :=
  textBytes tile.name ++ textBytes tile.declaration ++ optionalBytes tile.parameterBounds ++
    listBytes Location.canonicalBytes tile.locations ++
    listBytes Transition.canonicalBytes tile.transitions

def fingerprint (tile : Tile) : List UInt8 := Sha256.digest tile.canonicalBytes

end Tile

def textDigest (text : String) : List UInt8 := Sha256.digest (utf8Bytes text)

end Tilework
