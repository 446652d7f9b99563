/-!
# Binary floating-point values of 64 bits

A value is a sign and a magnitude. The magnitude is the 63 bits below the sign read as one number;
magnitudes are ordered as the absolute values they stand for. `key` extends this to an order of all
values that are not NaN, in which the two zeros are equal. Rounding is exact integer arithmetic.
-/

namespace Tilework

structure Binary64 where
  negative : Bool
  magnitude : Nat
deriving DecidableEq, Repr, Inhabited

namespace Binary64

/-- The magnitude of the infinities. Smaller ones are finite, greater ones are NaN. -/
def infinityMagnitude : Nat := 0x7ff0000000000000

def signWeight : Nat := 0x8000000000000000

/-- The least significand of 53 bits. It is also the weight of the exponent in a magnitude. -/
def leadingBit : Nat := 0x10000000000000

def ofBits (bits : Nat) : Binary64 := ⟨decide (signWeight ≤ bits), bits % signWeight⟩

def toBits (v : Binary64) : Nat := (if v.negative then signWeight else 0) + v.magnitude

def greatest : Binary64 := ⟨false, infinityMagnitude - 1⟩

def least : Binary64 := ⟨true, infinityMagnitude - 1⟩

def nan : Binary64 := ⟨false, infinityMagnitude + leadingBit / 2⟩

def isNaN (v : Binary64) : Bool := infinityMagnitude < v.magnitude

def isFinite (v : Binary64) : Bool := v.magnitude < infinityMagnitude

/-- The place of a value in the order. The sign of zero does not count. -/
def key (v : Binary64) : Int := if v.negative then -v.magnitude else v.magnitude

/-- NaN is neither below nor above any value. -/
instance : LT Binary64 := ⟨fun a b => a.isNaN = false ∧ b.isNaN = false ∧ a.key < b.key⟩

instance (a b : Binary64) : Decidable (a < b) :=
  inferInstanceAs (Decidable (a.isNaN = false ∧ b.isNaN = false ∧ a.key < b.key))

theorem lt_iff {a b : Binary64} :
    a < b ↔ a.isNaN = false ∧ b.isNaN = false ∧ a.key < b.key := Iff.rfl

/-- The greater of two values. NaN gives way to the other value. -/
def sup (a b : Binary64) : Binary64 :=
  if a.isNaN then b else if b.isNaN then a else if a.key < b.key then b else a

/-- The lesser of two values. NaN gives way to the other value. -/
def inf (a b : Binary64) : Binary64 :=
  if a.isNaN then b else if b.isNaN then a else if b.key < a.key then b else a

/-- The natural number nearest to `num / den`. A tie goes to the even one. -/
def roundQuotient (num den : Nat) : Nat :=
  let q := num / den
  let r := num % den
  if 2 * r < den then q
  else if den < 2 * r then q + 1
  else if q % 2 = 0 then q else q + 1

/-- The exponent `e` with `2 ^ e ≤ num / den < 2 ^ (e + 1)`, for positive `num` and `den`. -/
def binaryExponent (num den : Nat) : Int :=
  let e : Int := (num.log2 : Int) - den.log2
  if den * Nat.pow 2 e.toNat ≤ num * Nat.pow 2 (-e).toNat then e else e - 1

/-- The magnitude nearest to `num / den`, ties to the even significand. It is that of the
infinities when the quotient is too great for a finite value. -/
def nearest (num den : Nat) : Nat :=
  if num = 0 then 0
  else
    let e := max (binaryExponent num den) (-1022)
    let q := e - 52
    let s := roundQuotient (num * Nat.pow 2 (-q).toNat) (den * Nat.pow 2 q.toNat)
    min ((e + 1022).toNat * leadingBit + s) infinityMagnitude

/-- A finite magnitude as a significand `s` and an exponent `q`: its value is `s * 2 ^ q`. -/
def parts (m : Nat) : Nat × Int :=
  if m < leadingBit then (m, -1074)
  else (leadingBit + m % leadingBit, (m / leadingBit : Nat) - 1075)

def mulMagnitude (a b : Nat) : Nat :=
  let (s, p) := parts a
  let (t, q) := parts b
  nearest (s * t * Nat.pow 2 (p + q).toNat) (Nat.pow 2 (-(p + q)).toNat)

def divMagnitude (a b : Nat) : Nat :=
  let (s, p) := parts a
  let (t, q) := parts b
  nearest (s * Nat.pow 2 (p - q).toNat) (t * Nat.pow 2 (q - p).toNat)

end Binary64

end Tilework
