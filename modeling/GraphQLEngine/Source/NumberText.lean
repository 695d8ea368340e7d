/-
The text of a number.

JSON and the query language write numbers in the same way: an optional
minus, digits without a leading zero, and optionally a point with digits and
an exponent.
-/
import GraphQLEngine.Double.Basic

namespace GraphQLEngine

/-- The parts of a number's text. -/
structure NumberText where
  negative : Bool
  whole : List Char
  fraction : Option (List Char)
  exponent : Option Int
deriving DecidableEq

namespace NumberText

/-- The number that a run of decimal digits denotes. -/
def digitsValue (digits : List Char) : Nat :=
  digits.foldl (fun n c => 10 * n + (c.toNat - 48)) 0

/-- The digits after a point, of which there is at least one. -/
def readFraction : List Char → Option (Option (List Char) × List Char)
  | '.' :: rest =>
    let digits := rest.takeWhile Char.isDigit
    if digits.isEmpty then none else some (some digits, rest.dropWhile Char.isDigit)
  | s => some (none, s)

/-- The exponent after its letter, with at least one digit. -/
def readExponent : List Char → Option (Option Int × List Char)
  | c :: rest =>
    if c == 'e' || c == 'E' then
      let (negative, rest) := match rest with
        | '-' :: r => (true, r)
        | '+' :: r => (false, r)
        | r => (false, r)
      let digits := rest.takeWhile Char.isDigit
      if digits.isEmpty then none
      else
        let n : Int := digitsValue digits
        some (some (if negative then -n else n), rest.dropWhile Char.isDigit)
    else some (none, c :: rest)
  | [] => some (none, [])

/-- Splits the longest number off a text. -/
def read (s : List Char) : Option (NumberText × List Char) := do
  let (negative, s) := match s with
    | '-' :: rest => (true, rest)
    | _ => (false, s)
  let whole := s.takeWhile Char.isDigit
  if whole.isEmpty || (whole.head? == some '0' && whole.length != 1) then none
  else
    let (fraction, s) ← readFraction (s.dropWhile Char.isDigit)
    let (exponent, s) ← readExponent s
    some (⟨negative, whole, fraction, exponent⟩, s)

/-- The float that a number's text denotes. -/
def toDouble (t : NumberText) : Double :=
  let fraction := t.fraction.getD []
  Double.ofDecimal t.negative (digitsValue (t.whole ++ fraction)) (t.exponent.getD 0 - fraction.length)

/-- Neither point nor exponent. -/
def isWhole (t : NumberText) : Bool :=
  t.fraction.isNone && t.exponent.isNone

/-- The integer before the point. -/
def wholeValue (t : NumberText) : Int :=
  let n : Int := digitsValue t.whole
  if t.negative then -n else n

end NumberText

end GraphQLEngine
