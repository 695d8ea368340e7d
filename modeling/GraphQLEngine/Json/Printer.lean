/-
The text of a JSON value.

Compact: no blanks, entries in order.  A float has the fewest digits that
read back, laid out as `Json.floatLayout` says; text escapes the quote, the
backslash and the control characters and leaves everything else as it is.
-/
import GraphQLEngine.Json.Basic

namespace GraphQLEngine

/-! ## Numbers -/

/-- How a nonzero decimal is laid out, by the exponent of its first digit. -/
structure FloatLayout where
  /-- Least exponent in plain notation. -/
  plainFrom : Int
  /-- Greatest exponent in plain notation. -/
  plainTo : Int
deriving DecidableEq

/-- Floats are plain from `1e-5` up to, but without, `1e16`. -/
def Json.floatLayout : FloatLayout := ⟨-5, 15⟩

/-- A run of zeros. -/
def zeros (count : Nat) : String :=
  String.ofList (List.replicate count '0')

/-- Plain notation with at least one digit after the point.  `point` digits stand before it. -/
def Decimal.plainText (digits : List Char) (point : Int) : String :=
  let size : Int := digits.length
  if point ≤ 0 then
    "0." ++ zeros (-point).toNat ++ String.ofList digits
  else if size ≤ point then
    String.ofList digits ++ zeros (point - size).toNat ++ ".0"
  else
    String.ofList (digits.take point.toNat) ++ "." ++ String.ofList (digits.drop point.toNat)

/-- One digit before the point, and an exponent with its sign. -/
def Decimal.scientificText (digits : List Char) (exponent : Int) : String :=
  let significand :=
    match digits with
    | [] => "0"
    | [c] => String.ofList [c]
    | c :: rest => String.ofList [c] ++ "." ++ String.ofList rest
  let sign := if exponent < 0 then "-" else "+"
  significand ++ "e" ++ sign ++ toString exponent.natAbs

/-- The text of a nonzero decimal in a layout. -/
def Decimal.text (layout : FloatLayout) (d : Decimal) : String :=
  let digits := (toString d.digits).toList
  let exponent := d.exponent + digits.length - 1
  if layout.plainFrom ≤ exponent ∧ exponent ≤ layout.plainTo then
    plainText digits (exponent + 1)
  else
    scientificText digits exponent

/-- The text of a finite float. -/
def Double.text (layout : FloatLayout) (d : Double) : String :=
  let sign := if d.isNegative then "-" else ""
  if d.isZero then sign ++ "0.0" else sign ++ d.shortest.text layout

/-! ## Strings -/

/-- The lower-case hexadecimal digit of a number below sixteen. -/
def hexDigit (n : Nat) : Char :=
  if n < 10 then Char.ofNat (48 + n) else Char.ofNat (87 + n)

/-- The escaped form of a character in a JSON string. -/
def Json.escape (c : Char) : List Char :=
  if c = '"' then ['\\', '"']
  else if c = '\\' then ['\\', '\\']
  else if c = '\n' then ['\\', 'n']
  else if c = '\r' then ['\\', 'r']
  else if c = '\t' then ['\\', 't']
  else if c = Char.ofNat 8 then ['\\', 'b']
  else if c = Char.ofNat 12 then ['\\', 'f']
  else if c.toNat < 32 then ['\\', 'u', '0', '0', hexDigit (c.toNat / 16), hexDigit (c.toNat % 16)]
  else [c]

/-- A text in quotes. -/
def Json.quote (s : String) : String :=
  String.ofList ('"' :: s.toList.flatMap Json.escape ++ ['"'])

/-! ## Values -/

namespace Json

mutual

/-- The text of a value. -/
def text : Json → String
  | .null => "null"
  | .bool true => "true"
  | .bool false => "false"
  | .int n => toString n
  | .float d => d.text floatLayout
  | .str s => quote s
  | .arr items => "[" ++ itemsText items ++ "]"
  | .obj entries => "\x7b" ++ entriesText entries ++ "\x7d"

def itemsText : List Json → String
  | [] => ""
  | [j] => text j
  | j :: rest => text j ++ "," ++ itemsText rest

def entriesText : List (String × Json) → String
  | [] => ""
  | [(k, j)] => quote k ++ ":" ++ text j
  | (k, j) :: rest => quote k ++ ":" ++ text j ++ "," ++ entriesText rest

end

end Json

end GraphQLEngine
