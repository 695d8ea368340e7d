/-
JSON values.

Objects are lists of entries in the order of the text; the functions that
build objects keep their keys distinct, and `Json.collapse` makes them so.
Integers and floats are different values even where they are numerically
equal.  Integers stay within the two 64-bit ranges; `Json.ofInt` and
`Json.ofDouble` are the ways to make a number from any integer and any
binary64 number.
-/
import GraphQLEngine.Double.Shortest
import GraphQLEngine.IntRange
import GraphQLEngine.OrderedMap

namespace GraphQLEngine

/-- A JSON value. -/
inductive Json where
  | null
  | bool (value : Bool)
  | int (value : Int)
  | float (value : Double)
  | str (value : String)
  | arr (items : List Json)
  | obj (entries : List (String × Json))
deriving Inhabited

/-- The entries of a JSON object. -/
abbrev JsonObject := OrderedMap Json

namespace Json

/-! ## Equality -/

mutual

/-- Equality of values, entry order included, is decidable. -/
def decEq : (a b : Json) → Decidable (a = b)
  | .null, b => match b with
    | .null => isTrue rfl
    | .bool _ | .int _ | .float _ | .str _ | .arr _ | .obj _ => isFalse (by simp)
  | .bool x, b => match b with
    | .bool y => if h : x = y then isTrue (by rw [h]) else isFalse (by simp [h])
    | .null | .int _ | .float _ | .str _ | .arr _ | .obj _ => isFalse (by simp)
  | .int x, b => match b with
    | .int y => if h : x = y then isTrue (by rw [h]) else isFalse (by simp [h])
    | .null | .bool _ | .float _ | .str _ | .arr _ | .obj _ => isFalse (by simp)
  | .float x, b => match b with
    | .float y => if h : x = y then isTrue (by rw [h]) else isFalse (by simp [h])
    | .null | .bool _ | .int _ | .str _ | .arr _ | .obj _ => isFalse (by simp)
  | .str x, b => match b with
    | .str y => if h : x = y then isTrue (by rw [h]) else isFalse (by simp [h])
    | .null | .bool _ | .int _ | .float _ | .arr _ | .obj _ => isFalse (by simp)
  | .arr xs, b => match b with
    | .arr ys => match decEqItems xs ys with
      | isTrue h => isTrue (by rw [h])
      | isFalse h => isFalse (by simp [h])
    | .null | .bool _ | .int _ | .float _ | .str _ | .obj _ => isFalse (by simp)
  | .obj xs, b => match b with
    | .obj ys => match decEqEntries xs ys with
      | isTrue h => isTrue (by rw [h])
      | isFalse h => isFalse (by simp [h])
    | .null | .bool _ | .int _ | .float _ | .str _ | .arr _ => isFalse (by simp)

def decEqItems : (a b : List Json) → Decidable (a = b)
  | [], [] => isTrue rfl
  | [], _ :: _ => isFalse (by simp)
  | _ :: _, [] => isFalse (by simp)
  | x :: xs, y :: ys => match decEq x y with
    | isFalse h => isFalse (by simp [h])
    | isTrue h => match decEqItems xs ys with
      | isTrue hs => isTrue (by rw [h, hs])
      | isFalse hs => isFalse (by simp [hs])

def decEqEntries : (a b : List (String × Json)) → Decidable (a = b)
  | [], [] => isTrue rfl
  | [], _ :: _ => isFalse (by simp)
  | _ :: _, [] => isFalse (by simp)
  | (k, x) :: xs, (l, y) :: ys =>
    if hk : k = l then
      match decEq x y with
      | isFalse h => isFalse (by simp [h])
      | isTrue h => match decEqEntries xs ys with
        | isTrue hs => isTrue (by rw [hk, h, hs])
        | isFalse hs => isFalse (by simp [hs])
    else isFalse (by simp [hk])

end

instance : DecidableEq Json := decEq

mutual

/-- Sameness of JSON values: floats by their numeric value, objects as sets of entries. -/
def same : Json → Json → Bool
  | .null, .null => true
  | .bool x, .bool y => x == y
  | .int x, .int y => x == y
  | .float x, .float y => x.sameNumber y
  | .str x, .str y => x == y
  | .arr xs, .arr ys => sameItems xs ys
  | .obj xs, .obj ys => xs.length == ys.length && sameEntries xs ys
  | _, _ => false

def sameItems : List Json → List Json → Bool
  | [], [] => true
  | x :: xs, y :: ys => same x y && sameItems xs ys
  | _, _ => false

/-- Each entry of the first object has a counterpart in the second. -/
def sameEntries : List (String × Json) → List (String × Json) → Bool
  | [], _ => true
  | (k, x) :: xs, ys =>
    (match OrderedMap.get? ys k with
      | some y => same x y
      | none => false) && sameEntries xs ys

end

/-! ## Numbers -/

/-- Whether an integer fits one of the two 64-bit ranges. -/
def fits (n : Int) : Bool :=
  IntRange.signed64 n || IntRange.unsigned64 n

/-- The number of an integer: a float where no 64-bit range holds it. -/
def ofInt (n : Int) : Json :=
  if fits n then .int n else .float (Double.ofInt n)

/-- The number of a binary64 value; infinities and not a number have none and become null. -/
def ofDouble (d : Double) : Json :=
  if d.isFinite then .float d else .null

/-! ## Views -/

def isNull : Json → Bool
  | .null => true
  | _ => false

def asBool? : Json → Option Bool
  | .bool b => some b
  | _ => none

def asString? : Json → Option String
  | .str s => some s
  | _ => none

def asArray? : Json → Option (List Json)
  | .arr items => some items
  | _ => none

def asObject? : Json → Option JsonObject
  | .obj entries => some entries
  | _ => none

/-- The signed 64-bit integer of a value. -/
def asInt64? : Json → Option Int
  | .int n => if IntRange.signed64 n then some n else none
  | _ => none

mutual

/-- Objects with distinct keys at every depth: a repeated key keeps its first place and its last value. -/
def collapse : Json → Json
  | .arr items => .arr (collapseItems items)
  | .obj entries => .obj (OrderedMap.ofList (collapseEntries entries))
  | j => j

def collapseItems : List Json → List Json
  | [] => []
  | j :: js => collapse j :: collapseItems js

def collapseEntries : List (String × Json) → List (String × Json)
  | [] => []
  | (k, j) :: es => (k, collapse j) :: collapseEntries es

end

end Json

end GraphQLEngine
