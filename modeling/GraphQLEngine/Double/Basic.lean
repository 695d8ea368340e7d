/-
Binary64 numbers by their encoding.

A number is its 64 bits, so equality of values is equality of encodings and
every operation is exact arithmetic on natural numbers.  Only what JSON
needs is here: reading the encoding, comparing, and rounding an exact
decimal to the nearest number.  The shortest decimal of a number is in
Double/Shortest.
-/

namespace GraphQLEngine

/-- A binary64 number by its encoding. -/
structure Double where
  bits : UInt64
deriving DecidableEq

namespace Double

/-! ## The encoding -/

/-- Width of the stored significand. -/
def significandBits : Nat := 52

/-- The leading bit of a normal significand, which is not stored. -/
def hiddenBit : Nat := 1 <<< significandBits

/-- The sign as part of the encoding. -/
def signBit : Nat := 1 <<< 63

/-- The encoding of positive infinity; every magnitude above it is not a number. -/
def infinityBits : Nat := 2047 <<< significandBits

/-- Adds the sign bit to an encoded magnitude. -/
def ofMagnitude (negative : Bool) (magnitude : Nat) : Double :=
  ⟨UInt64.ofNat (if negative then magnitude + signBit else magnitude)⟩

/-- The sign bit. -/
def isNegative (d : Double) : Bool :=
  decide (signBit ≤ d.bits.toNat)

/-- The encoding without the sign bit. -/
def magnitude (d : Double) : Nat :=
  d.bits.toNat % signBit

/-- Neither infinite nor not a number. -/
def isFinite (d : Double) : Bool :=
  decide (d.magnitude < infinityBits)

/-- One of the two zeros. -/
def isZero (d : Double) : Bool :=
  d.magnitude == 0

def zero : Double := ⟨0⟩

def infinity : Double := ofMagnitude false infinityBits

/-- The usual quiet encoding of not a number. -/
def notANumber : Double := ofMagnitude false (infinityBits + (1 <<< 51))

/-- Significand `m` and exponent `e` of a finite magnitude, whose value is `m * 2 ^ e`. -/
def decompose (d : Double) : Nat × Int :=
  let biased := d.magnitude / hiddenBit
  let fraction := d.magnitude % hiddenBit
  if biased = 0 then (fraction, -1074) else (fraction + hiddenBit, (biased : Int) - 1075)

/-- Numeric equality: the zeros are equal, and not a number differs from everything. -/
def sameNumber (a b : Double) : Bool :=
  decide (a.magnitude ≤ infinityBits) && ((a.isZero && b.isZero) || a == b)

/-! ## Rounding -/

/-- The quotient rounded to the nearest natural number, a half to the even one. -/
def divideToNearest (num den : Nat) : Nat :=
  let q := num / den
  let r := num % den
  if den < 2 * r ∨ (den = 2 * r ∧ q % 2 = 1) then q + 1 else q

/-- A ratio times a power of two, as a ratio. -/
def scaleByTwo (num den : Nat) (e : Int) : Nat × Nat :=
  if e < 0 then (num, den <<< (-e).toNat) else (num <<< e.toNat, den)

/-- The greatest `e` with `2 ^ e ≤ num / den`, for positive `num` and `den`. -/
def floorLog2 (num den : Nat) : Int :=
  let e : Int := (num.log2 : Int) - (den.log2 : Int)
  let (n, d) := scaleByTwo num den (-e)
  if d ≤ n then e else e - 1

/-- The encoded magnitude nearest to `num / den`, for positive `num` and `den`.

The exponent is chosen so that the significand has 53 bits, or fewer at the
bottom of the range.  A significand that rounds up to 54 bits carries into
the exponent field, which is the encoding of the next power of two. -/
def magnitudeOfRatio (num den : Nat) : Nat :=
  let e := max (floorLog2 num den - 52) (-1074)
  let (n, d) := scaleByTwo num den (-e)
  min ((e + 1074).toNat * hiddenBit + divideToNearest n d) infinityBits

/-- The number nearest to `digits * 10 ^ exponent`, with the given sign.

Powers of ten far outside the range are answered without computing them. -/
def ofDecimal (negative : Bool) (digits : Nat) (exponent : Int) : Double :=
  if digits = 0 then
    ofMagnitude negative 0
  else
    let size : Int := (digits.log2 : Int) * 30103 / 100000 + exponent
    if 400 < size then
      ofMagnitude negative infinityBits
    else if size < -400 then
      ofMagnitude negative 0
    else if exponent < 0 then
      ofMagnitude negative (magnitudeOfRatio digits (Nat.pow 10 (-exponent).toNat))
    else
      ofMagnitude negative (magnitudeOfRatio (digits * Nat.pow 10 exponent.toNat) 1)

/-- The number nearest to an integer. -/
def ofInt (n : Int) : Double :=
  ofDecimal (decide (n < 0)) n.natAbs 0

end Double

end GraphQLEngine
