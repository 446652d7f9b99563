import Tilework.Number.Binary64

/-!
# Decimal numerals

A decimal is a natural number scaled by a power of ten. `Decimal.magnitude` rounds it to a
binary value, `Decimal.shortest` finds the fewest digits that round back to one, and
`readSigned?` reads a numeral such as `-12.5e3`.
-/

namespace Tilework

/-- The number `digits * 10 ^ exponent`. -/
structure Decimal where
  digits : Nat
  exponent : Int
deriving DecidableEq, Repr

namespace Decimal

/-- The nearest binary magnitude. Decimals beyond `10 ^ 400` or below `10 ^ -400` are settled by
their size alone, so that no large power is computed. -/
def magnitude (d : Decimal) : Nat :=
  if d.digits = 0 then 0
  else if 400 < d.exponent then Binary64.infinityMagnitude
  else if (d.digits.log2 / 3 + 1 : Nat) + d.exponent < -400 then 0
  else Binary64.nearest (d.digits * Nat.pow 10 d.exponent.toNat) (Nat.pow 10 (-d.exponent).toNat)

def digits? (cs : List Char) : Option Nat :=
  if cs ≠ [] ∧ cs.all Char.isDigit then some (Nat.ofDigitChars 10 cs 0) else none

/-- The exponent at the end of a numeral: nothing, or `e` with a signed integer. -/
def exponent? : List Char → Option Int
  | [] => some 0
  | c :: cs =>
    if c = 'e' ∨ c = 'E' then
      match cs with
      | '+' :: ds => (digits? ds).map Int.ofNat
      | '-' :: ds => (digits? ds).map fun n => -Int.ofNat n
      | ds => (digits? ds).map Int.ofNat
    else none

/-- The digits behind a decimal point, and what follows them. -/
def fraction : List Char → List Char × List Char
  | '.' :: cs => (cs.takeWhile Char.isDigit, cs.dropWhile Char.isDigit)
  | cs => ([], cs)

/-- An unsigned numeral: digits with at most one point among or beside them, then an exponent. -/
def read? (cs : List Char) : Option Decimal :=
  let whole := cs.takeWhile Char.isDigit
  let (part, rest) := fraction (cs.dropWhile Char.isDigit)
  if whole = [] ∧ part = [] then none
  else (exponent? rest).map fun e => ⟨Nat.ofDigitChars 10 (whole ++ part) 0, e - part.length⟩

/-- The value nearest to a numeral with an optional sign; it may be infinite. -/
def readSigned? : List Char → Option Binary64
  | '-' :: cs => (read? cs).map fun d => ⟨true, d.magnitude⟩
  | '+' :: cs => (read? cs).map fun d => ⟨false, d.magnitude⟩
  | cs => (read? cs).map fun d => ⟨false, d.magnitude⟩

inductive Tie where
  | even
  | up

/-- The decimal with the given exponent that rounds to a positive magnitude and is nearest to it,
if there is one. Decimals round to the magnitude when they lie between the midpoints to its
neighbours; the midpoints themselves count when the significand is even. Only the two decimals
next to the value can be nearest. -/
def onGrid? (tie : Tie) (m : Nat) (exponent : Int) : Option Decimal :=
  let (s, q) := Binary64.parts m
  let num := Nat.pow 2 (q - 2).toNat * Nat.pow 10 (-exponent).toNat
  let den := Nat.pow 2 (2 - q).toNat * Nat.pow 10 exponent.toNat
  let gap := if m % Binary64.leadingBit = 0 ∧ 2 * Binary64.leadingBit ≤ m then 1 else 2
  let low := (4 * s - gap) * num
  let high := (4 * s + 2) * num
  let value := 4 * s * num
  let rounds (c : Nat) : Bool :=
    if s % 2 = 0 then low ≤ c * den && c * den ≤ high else low < c * den && c * den < high
  let a := value / den
  let nearer : Nat :=
    match compare (2 * value) ((2 * a + 1) * den), tie with
    | .lt, _ => a
    | .gt, _ => a + 1
    | .eq, .up => a + 1
    | .eq, .even => if a % 2 = 0 then a else a + 1
  match rounds a, rounds (a + 1) with
  | true, true => some ⟨nearer, exponent⟩
  | true, false => some ⟨a, exponent⟩
  | false, true => some ⟨a + 1, exponent⟩
  | false, false => none

/-- A power of ten above a positive magnitude. -/
def ceilingExponent (m : Nat) : Int :=
  let (s, q) := Binary64.parts m
  ((s.log2 + 1 : Nat) + q) * 30103 / 100000 + 1

/-- The decimal with the fewest digits that rounds to a finite magnitude, the nearest of those.
Grids are tried from coarse to fine, so the first hit has the fewest digits. -/
def shortest (tie : Tie) (m : Nat) : Decimal :=
  if m = 0 then ⟨0, 0⟩
  else
    let top := ceilingExponent m
    match (List.range 24).findSome? fun (i : Nat) => onGrid? tie m (top - i) with
    | some d => d
    | none =>
      let (s, q) := Binary64.parts m
      ⟨s * Nat.pow 2 q.toNat * Nat.pow 5 (-q).toNat, min q 0⟩

def positional (d : Decimal) : List Char :=
  let ds := Nat.toDigits 10 d.digits
  if 0 ≤ d.exponent then ds ++ List.replicate d.exponent.toNat '0'
  else
    let point : Int := ds.length + d.exponent
    if 0 < point then ds.take point.toNat ++ '.' :: ds.drop point.toNat
    else '0' :: '.' :: List.replicate (-point).toNat '0' ++ ds

def leading (d : Decimal) : Int := (Nat.toDigits 10 d.digits).length + d.exponent - 1

/-- One digit, the others behind a point, and a signed exponent. -/
def scientific (d : Decimal) : List Char :=
  let mantissa := match Nat.toDigits 10 d.digits with
    | c :: [] => [c]
    | c :: ds => c :: '.' :: ds
    | [] => []
  let e := d.leading
  mantissa ++ 'e' :: (if e < 0 then '-' else '+') :: Nat.toDigits 10 e.natAbs

end Decimal

namespace Binary64

/-- The text of a value in listings: the fewest digits, an equally near pair resolved upwards,
never an exponent. -/
def plain (v : Binary64) : String :=
  if v.isNaN then "NaN"
  else
    let sign := if v.negative then "-" else ""
    if v.isFinite then sign ++ String.ofList (Decimal.shortest .up v.magnitude).positional
    else sign ++ "inf"

/-- The text of a finite value in documents: the fewest digits, an equally near pair resolved to
the even one, positional with a point from `10 ^ -5` up to `10 ^ 16`. -/
def documentText (v : Binary64) : String :=
  let d := Decimal.shortest .even v.magnitude
  let sign := if v.negative then "-" else ""
  let body :=
    if -5 ≤ d.leading ∧ d.leading < 16 then
      if 0 ≤ d.exponent then d.positional ++ ['.', '0'] else d.positional
    else d.scientific
  sign ++ String.ofList body

end Binary64

end Tilework
