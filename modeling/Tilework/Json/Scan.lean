import Tilework.Json.Fault
import Tilework.Token.Raw

/-!
# Scanning document text

Blanks, keywords, strings and numbers are read from the front of a text, and what follows them is
returned. Strings and numbers can also be skipped, which asks less of them: a skipped string may
hold half of a surrogate pair, and a skipped number may be out of range.
-/

namespace Tilework.Json

/-- Read from the front of a text; what is left follows the value. -/
abbrev Reader (α : Type) := List Char → Except DocumentFault (α × List Char)

def isBlank (c : Char) : Bool := c == ' ' || c == '\n' || c == '\t' || c == '\r'

def skipBlanks (cs : List Char) : List Char := cs.dropWhile isBlank

def keyword : List Char → List Char → Except DocumentFault (List Char)
  | [], cs => .ok cs
  | _ :: _, [] => .error .ended
  | k :: ks, c :: cs => if c = k then keyword ks cs else .error .malformed

def hexDigit? (c : Char) : Option Nat :=
  if '0' ≤ c ∧ c ≤ '9' then some (c.toNat - '0'.toNat)
  else if 'a' ≤ c ∧ c ≤ 'f' then some (c.toNat - 'a'.toNat + 10)
  else if 'A' ≤ c ∧ c ≤ 'F' then some (c.toNat - 'A'.toNat + 10)
  else none

def escaped? (c : Char) : Option Char :=
  if c = '"' ∨ c = '\\' ∨ c = '/' then some c
  else if c = 'b' then some '\x08'
  else if c = 'f' then some '\x0c'
  else if c = 'n' then some '\n'
  else if c = 'r' then some '\r'
  else if c = 't' then some '\t'
  else none

def isLeading (unit : Nat) : Bool := 0xd800 ≤ unit && unit ≤ 0xdbff

def isTrailing (unit : Nat) : Bool := 0xdc00 ≤ unit && unit ≤ 0xdfff

def pairChar (leading trailing : Nat) : Char :=
  Char.ofNat (0x10000 + (leading - 0xd800) * 0x400 + (trailing - 0xdc00))

/-- Fewer bytes than an escape needs are an end of the text, whatever they are. -/
def badEscape (needed : Nat) (cs : List Char) : DocumentFault :=
  if utf8Length cs < needed then .ended else .malformed

/-- Where a string is being read: among plain characters, behind a backslash, inside a code unit of
which some digits are still to come, or between the units of a surrogate pair. -/
inductive StringState where
  | plain
  | escape
  | unit (leading : Option Nat) (toCome value : Nat)
  | backslash (leading : Nat)
  | letter (leading : Nat)

def prepend (c : Char) : Except DocumentFault (List Char × List Char) →
    Except DocumentFault (List Char × List Char) :=
  Except.map fun (text, rest) => (c :: text, rest)

def stringRest : StringState → Reader (List Char)
  | _, [] => .error .ended
  | .plain, c :: cs =>
    if c = '"' then .ok ([], cs)
    else if c = '\\' then stringRest .escape cs
    else if c.toNat < 0x20 then .error .malformed
    else prepend c (stringRest .plain cs)
  | .escape, c :: cs =>
    if c = 'u' then stringRest (.unit none 4 0) cs
    else match escaped? c with
      | some d => prepend d (stringRest .plain cs)
      | none => .error .malformed
  | .unit leading toCome value, c :: cs =>
    match hexDigit? c with
    | none => .error (badEscape toCome (c :: cs))
    | some d =>
      let value := 16 * value + d
      if 1 < toCome then stringRest (.unit leading (toCome - 1) value) cs
      else match leading with
        | none =>
          if isTrailing value then .error .malformed
          else if isLeading value then stringRest (.backslash value) cs
          else prepend (Char.ofNat value) (stringRest .plain cs)
        | some first =>
          if isTrailing value then prepend (pairChar first value) (stringRest .plain cs)
          else .error .malformed
  | .backslash leading, c :: cs =>
    if c = '\\' then stringRest (.letter leading) cs else .error .malformed
  | .letter leading, c :: cs =>
    if c = 'u' then stringRest (.unit (some leading) 4 0) cs else .error .malformed

inductive SkipState where
  | plain
  | escape
  | unit (toCome : Nat)

def skipString : SkipState → List Char → Except DocumentFault (List Char)
  | _, [] => .error .ended
  | .plain, c :: cs =>
    if c = '"' then .ok cs
    else if c = '\\' then skipString .escape cs
    else if c.toNat < 0x20 then .error .malformed
    else skipString .plain cs
  | .escape, c :: cs =>
    if c = 'u' then skipString (.unit 4) cs
    else if (escaped? c).isSome then skipString .plain cs
    else .error .malformed
  | .unit toCome, c :: cs =>
    if (hexDigit? c).isNone then .error (badEscape toCome (c :: cs))
    else if 1 < toCome then skipString (.unit (toCome - 1)) cs
    else skipString .plain cs

/-- A run of digits: the value of those that fit into 64 bits, how many they are, how many digits
follow that do not fit, and what stands behind the run. -/
structure DigitRun where
  value : Nat
  taken : Nat
  dropped : Nat
  rest : List Char

def wordLimit : Nat := 0x10000000000000000

def exponentLimit : Nat := 0x80000000

def digitRun (value taken : Nat) : List Char → DigitRun
  | [] => ⟨value, taken, 0, []⟩
  | c :: cs =>
    if c.isDigit then
      let next := 10 * value + (c.toNat - '0'.toNat)
      if next < wordLimit then digitRun next (taken + 1) cs
      else ⟨value, taken, ((c :: cs).takeWhile Char.isDigit).length,
        (c :: cs).dropWhile Char.isDigit⟩
    else ⟨value, taken, 0, c :: cs⟩

/-- A finite magnitude times a power of ten, each step rounded; `none` if it is too great. The
power is applied in steps of `10 ^ 308`, of which a few reach zero. -/
def scaleStep : (steps : Nat) → (m : Nat) → (exponent : Int) → Option Nat
  | 0, m, _ => some m
  | steps + 1, m, e =>
    if e.natAbs ≤ 308 then
      let power := Decimal.magnitude ⟨1, e.natAbs⟩
      if 0 ≤ e then
        let m := Binary64.mulMagnitude m power
        if m < Binary64.infinityMagnitude then some m else none
      else some (Binary64.divMagnitude m power)
    else if m = 0 then some 0
    else if 0 ≤ e then none
    else scaleStep steps (Binary64.divMagnitude m (Decimal.magnitude ⟨1, 308⟩)) (e + 308)

def scaled (negative : Bool) (value : Nat) (exponent : Int) (rest : List Char) :
    Except DocumentFault (Found × List Char) :=
  match scaleStep 4 (Binary64.nearest value 1) exponent with
  | some m => .ok (.number ⟨negative, m⟩, rest)
  | none => .error .malformed

/-- The exponent behind its letter. Exponents beyond 31 bits give zero or are out of range. -/
def exponentPart (negative : Bool) (value : Nat) (exponent : Int) (cs : List Char) :
    Except DocumentFault (Found × List Char) :=
  let (below, cs) := match cs with
    | '+' :: cs => (false, cs)
    | '-' :: cs => (true, cs)
    | cs => (false, cs)
  let e := Nat.ofDigitChars 10 (cs.takeWhile Char.isDigit) 0
  let rest := cs.dropWhile Char.isDigit
  match cs with
  | [] => .error .ended
  | c :: _ =>
    if ! c.isDigit then .error .malformed
    else if e < exponentLimit then
      scaled negative value (if below then exponent - e else exponent + e) rest
    else if value ≠ 0 ∧ ! below then .error .malformed
    else .ok (.number ⟨negative, 0⟩, rest)

def fractionPart (negative : Bool) (value : Nat) (exponent : Int) (cs : List Char) :
    Except DocumentFault (Found × List Char) :=
  let run := digitRun value 0 cs
  if run.taken = 0 ∧ run.dropped = 0 then
    .error (if cs = [] then .ended else .malformed)
  else
    let exponent := exponent - run.taken
    match run.rest with
    | c :: rest =>
      if c = 'e' ∨ c = 'E' then exponentPart negative run.value exponent rest
      else scaled negative run.value exponent run.rest
    | [] => scaled negative run.value exponent []

/-- A whole number. Negative zero and numbers beyond 64 bits are no integers. -/
def wholeNumber (negative : Bool) (value : Nat) : Found :=
  if negative then
    if 0 < value ∧ 2 * value ≤ wordLimit then .integer (-value)
    else .number ⟨true, Binary64.nearest value 1⟩
  else .integer value

def numberPart (negative : Bool) (value dropped : Nat) (cs : List Char) :
    Except DocumentFault (Found × List Char) :=
  let plain := if dropped = 0 then .ok (wholeNumber negative value, cs)
    else scaled negative value dropped cs
  match cs with
  | c :: rest =>
    if c = '.' then fractionPart negative value dropped rest
    else if c = 'e' ∨ c = 'E' then exponentPart negative value dropped rest
    else plain
  | [] => plain

def unsignedNumber (negative : Bool) : Reader Found
  | [] => .error .ended
  | '0' :: cs =>
    match cs with
    | c :: _ => if c.isDigit then .error .malformed else numberPart negative 0 0 cs
    | [] => numberPart negative 0 0 []
  | c :: cs =>
    if c.isDigit then
      let run := digitRun 0 0 (c :: cs)
      numberPart negative run.value run.dropped run.rest
    else .error .malformed

def skipDigits : List Char → Except DocumentFault (List Char)
  | c :: cs => if c.isDigit then .ok (cs.dropWhile Char.isDigit) else .error .malformed
  | [] => .error .malformed

def skipExponent : List Char → Except DocumentFault (List Char)
  | '+' :: cs => skipDigits cs
  | '-' :: cs => skipDigits cs
  | cs => skipDigits cs

def skipExponent? : List Char → Except DocumentFault (List Char)
  | c :: cs => if c = 'e' ∨ c = 'E' then skipExponent cs else .ok (c :: cs)
  | [] => .ok []

def skipNumber : List Char → Except DocumentFault (List Char)
  | '0' :: c :: cs => if c.isDigit then .error .malformed else skipTail (c :: cs)
  | cs => skipDigits cs >>= skipTail
where
  skipTail : List Char → Except DocumentFault (List Char)
    | '.' :: cs => skipDigits cs >>= skipExponent?
    | cs => skipExponent? cs

end Tilework.Json
