/-
The shortest decimal that reads back as a given binary64 number.

The reals that round to a number form an interval around it, ends included
when the significand is even.  For one digit, two digits and so on the two
neighbours of the number on that decimal grid are tested against the
interval; the first grid with a hit wins, of two hits the nearer one, and of
two equally near the even one.  Seventeen digits always suffice.
-/
import GraphQLEngine.Double.Basic

namespace GraphQLEngine

/-- The decimal `digits * 10 ^ exponent`. -/
structure Decimal where
  digits : Nat
  exponent : Int
deriving DecidableEq

namespace Decimal

/-- Drops up to `count` trailing zeros from the digits. -/
def trim : Nat → Decimal → Decimal
  | 0, d => d
  | count + 1, d =>
    if d.digits ≠ 0 ∧ d.digits % 10 = 0 then trim count ⟨d.digits / 10, d.exponent + 1⟩ else d

end Decimal

namespace Double

/-- The interval of reals that round to a number, as multiples of `2 ^ exponent`. -/
structure RoundingInterval where
  low : Nat
  centre : Nat
  high : Nat
  exponent : Int
  endsIncluded : Bool
deriving DecidableEq

/-- The rounding interval of `m * 2 ^ e`.

Below a power of two the spacing halves, so there the lower end is nearer. -/
def roundingInterval (m : Nat) (e : Int) : RoundingInterval where
  low := if m = hiddenBit ∧ -1074 < e then 4 * m - 1 else 4 * m - 2
  centre := 4 * m
  high := 4 * m + 2
  exponent := e - 2
  endsIncluded := m % 2 == 0

/-- A ratio times a power of ten, as a ratio. -/
def scaleByTen (num den : Nat) (e : Int) : Nat × Nat :=
  if e < 0 then (num, den * Nat.pow 10 (-e).toNat) else (num * Nat.pow 10 e.toNat, den)

/-- The greatest `e` with `10 ^ e ≤ num / den`, for positive `num` and `den`: an estimate from
the binary logarithm, which is at most one off, corrected by comparison. -/
def floorLog10 (num den : Nat) : Int :=
  let estimate : Int := Int.fdiv (floorLog2 num den * 30103) 100000 - 1
  let reached (e : Int) : Bool :=
    let (n, d) := scaleByTen num den (-e)
    decide (d ≤ n)
  if reached (estimate + 2) then estimate + 2
  else if reached (estimate + 1) then estimate + 1
  else estimate

/-- Whether `x * num / den`, in units of the interval, rounds to the number. -/
def RoundingInterval.holds (i : RoundingInterval) (x num den : Nat) : Bool :=
  if i.endsIncluded then decide (i.low * den ≤ x * num ∧ x * num ≤ i.high * den)
  else decide (i.low * den < x * num ∧ x * num < i.high * den)

/-- The best decimal with exponent `p` that rounds to the number, if there is one. -/
def nearestOnGrid (i : RoundingInterval) (p : Int) : Option Decimal :=
  -- one step of the grid, in units of the interval
  let (n₁, d₁) := scaleByTen 1 1 p
  let (num, den) := scaleByTwo n₁ d₁ (-i.exponent)
  let below := i.centre * den / num
  let gapBelow := i.centre * den - below * num
  let gapAbove := (below + 1) * num - i.centre * den
  match i.holds below num den, i.holds (below + 1) num den with
  | true, true =>
    if gapBelow < gapAbove ∨ (gapBelow = gapAbove ∧ below % 2 = 0) then some ⟨below, p⟩
    else some ⟨below + 1, p⟩
  | true, false => some ⟨below, p⟩
  | false, true => some ⟨below + 1, p⟩
  | false, false => none

/-- The hit on the coarsest of `count` grids, each ten times finer than the one before. -/
def firstHit (i : RoundingInterval) (exponent : Int) (count : Nat) : Option Decimal :=
  (List.range count).findSome? (fun (k : Nat) => nearestOnGrid i (exponent - k))

/-- The shortest decimal that reads back as the finite positive magnitude `m * 2 ^ e`. -/
def shortestOf (m : Nat) (e : Int) : Decimal :=
  let i := roundingInterval m e
  let (num, den) := scaleByTwo i.centre 1 i.exponent
  ((firstHit i (floorLog10 num den) 17).getD ⟨0, 0⟩).trim 20

/-- The shortest decimal that reads back as the magnitude of a finite number. -/
def shortest (d : Double) : Decimal :=
  if d.isZero then ⟨0, 0⟩
  else
    let (m, e) := d.decompose
    shortestOf m e

end Double

end GraphQLEngine
