/-
Reading JSON text.

The grammar is that of JSON.  A number without point and exponent is an
integer where a 64-bit range holds it, and a float otherwise; `-0` is a float
because no integer is a negative zero; a float beyond the finite range is
refused.  Arrays and objects nest at most `nestingLimit` deep.  Repeated
keys are kept here: what they mean is for the reader of the value to say.
-/
import GraphQLEngine.Json.Basic
import GraphQLEngine.Source.NumberText
import GraphQLEngine.Source.Escape

namespace GraphQLEngine

namespace Json

/-- How deep arrays and objects may nest. -/
def nestingLimit : Nat := 127

def isBlank (c : Char) : Bool :=
  c == ' ' || c == '\n' || c == '\t' || c == '\r'

/-- Drops leading blanks. -/
def skipBlanks (s : List Char) : List Char :=
  s.dropWhile isBlank

/-! ## Numbers -/

/-- The JSON number that a number's text denotes, unless it is out of range. -/
def ofNumberText? (t : NumberText) : Option Json :=
  let i := t.wholeValue
  if t.isWhole && fits i && !(t.negative && i == 0) then
    some (.int i)
  else
    let d := t.toDouble
    if d.isFinite then some (.float d) else none

/-! ## Strings -/

/-- The characters up to the closing quote, in reverse order, added to `read`.

Each step consumes a character, so the length of the text is fuel enough. -/
def readString : Nat → List Char → List Char → Option (List Char × List Char)
  | 0, _, _ => none
  | _ + 1, _, [] => none
  | fuel + 1, read, c :: rest =>
    if c == '"' then some (read, rest)
    else if c == '\\' then
      match rest with
      | [] => none
      | 'u' :: rest => do
        let (c, rest) ← Escape.readUnicode rest
        readString fuel (c :: read) rest
      | e :: rest => do
        let c ← Escape.simple? e
        readString fuel (c :: read) rest
    else if c.toNat < 32 then none
    else readString fuel (c :: read) rest

/-- A string after its opening quote. -/
def readText (s : List Char) : Option (String × List Char) := do
  let (read, rest) ← readString (s.length + 1) [] s
  some (String.ofList read.reverse, rest)

/-! ## Values -/

/-- Removes a literal word from the front. -/
def dropWord (word s : List Char) : Option (List Char) :=
  match word, s with
  | [], s => some s
  | w :: word, c :: s => if w == c then dropWord word s else none
  | _ :: _, [] => none

mutual

/-- A value at the front of a text without leading blanks.  The fuel bounds the steps and is at
least the length of the text; `room` is how many levels may still open. -/
def readValue : Nat → Nat → List Char → Option (Json × List Char)
  | 0, _, _ => none
  | _ + 1, _, [] => none
  | fuel + 1, room, c :: rest =>
    if c == '"' then do
      let (s, rest) ← readText rest
      some (.str s, rest)
    else if c == '[' then
      match room with
      | 0 => none
      | room + 1 => readItems fuel room [] true (skipBlanks rest)
    else if c == '\x7b' then
      match room with
      | 0 => none
      | room + 1 => readEntries fuel room [] true (skipBlanks rest)
    else if c == 't' then (dropWord ['r', 'u', 'e'] rest).map (fun r => (.bool true, r))
    else if c == 'f' then (dropWord ['a', 'l', 's', 'e'] rest).map (fun r => (.bool false, r))
    else if c == 'n' then (dropWord ['u', 'l', 'l'] rest).map (fun r => (.null, r))
    else do
      let (number, rest) ← NumberText.read (c :: rest)
      let j ← ofNumberText? number
      some (j, rest)

/-- The items of an array up to its closing bracket; `read` holds the earlier ones in reverse, and
`first` says that there are none. -/
def readItems : Nat → Nat → List Json → Bool → List Char → Option (Json × List Char)
  | 0, _, _, _, _ => none
  | fuel + 1, room, read, first, s =>
    match s with
    | ']' :: rest => some (.arr read.reverse, rest)
    | _ => do
      let s ← if first then some s else match s with
        | ',' :: rest => some (skipBlanks rest)
        | _ => none
      let (j, rest) ← readValue fuel room s
      readItems fuel room (j :: read) false (skipBlanks rest)

/-- The entries of an object up to its closing brace. -/
def readEntries : Nat → Nat → List (String × Json) → Bool → List Char → Option (Json × List Char)
  | 0, _, _, _, _ => none
  | fuel + 1, room, read, first, s =>
    match s with
    | '\x7d' :: rest => some (.obj read.reverse, rest)
    | _ => do
      let s ← if first then some s else match s with
        | ',' :: rest => some (skipBlanks rest)
        | _ => none
      match s with
      | '"' :: rest => do
        let (key, rest) ← readText rest
        match skipBlanks rest with
        | ':' :: rest => do
          let (j, rest) ← readValue fuel room (skipBlanks rest)
          readEntries fuel room ((key, j) :: read) false (skipBlanks rest)
        | _ => none
      | _ => none

end

/-- Reads a text that holds one value and nothing else. -/
def parse? (s : String) : Option Json := do
  let s := skipBlanks s.toList
  let (j, rest) ← readValue (2 * s.length + 2) nestingLimit s
  if (skipBlanks rest).isEmpty then some j else none

end Json

end GraphQLEngine
