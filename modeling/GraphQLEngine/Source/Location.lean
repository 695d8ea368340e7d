/-
Lines and columns of a source text.

A location counts lines and columns from one.  Only a line feed ends a line,
and a column is one character, whatever its width in bytes.  `LineIndex`
finds the location of a byte offset by binary search over the offsets at
which lines start.
-/

namespace GraphQLEngine

/-- A line and a column, both counted from one. -/
structure Location where
  line : Nat
  column : Nat
deriving DecidableEq, Inhabited

namespace Location

def text (l : Location) : String :=
  toString l.line ++ ":" ++ toString l.column

instance : ToString Location := ⟨text⟩

/-- Source order. -/
def before (a b : Location) : Bool :=
  decide (a.line < b.line ∨ (a.line = b.line ∧ a.column < b.column))

end Location

/-- The bytes of a text. -/
def byteLength (s : List Char) : Nat :=
  s.foldl (fun n c => n + c.utf8Size) 0

/-- A line of a source text: where it starts, and the text from there to the end. -/
structure LineStart where
  offset : Nat
  following : List Char

/-- The lines of a source text in order; there is at least one. -/
structure LineIndex where
  lines : Array LineStart

/-- Where a search among the starts of lines ends. -/
inductive LineSearch where
  /-- A line starts at the offset. -/
  | found (line : Nat)
  /-- No line starts at the offset, and one that did would have this number. -/
  | absent (line : Nat)

namespace LineIndex

/-- The lines that start after `offset`, given the text from there. -/
def linesAfter : Nat → List Char → List LineStart
  | _, [] => []
  | offset, c :: rest =>
    let next := offset + c.utf8Size
    if c = '\n' then ⟨next, rest⟩ :: linesAfter next rest else linesAfter next rest

def ofChars (text : List Char) : LineIndex :=
  ⟨(⟨0, text⟩ :: linesAfter 0 text).toArray⟩

/-- The last of the lines from `low` up to, but without, `high` that starts at or before the
offset, if line `low` does.  Each step halves the range, which `fuel` bounds. -/
def search (lines : Array LineStart) (offset : Nat) : Nat → Nat → Nat → Nat
  | 0, low, _ => low
  | fuel + 1, low, high =>
    if high ≤ low + 1 then low
    else
      let middle := (low + high) / 2
      match lines[middle]? with
      | none => low
      | some line =>
        if line.offset ≤ offset then search lines offset fuel middle high
        else search lines offset fuel low middle

/-- Looks for the line that starts at an offset. -/
def find (lines : Array LineStart) (offset : Nat) : LineSearch :=
  let line := search lines offset lines.size 0 lines.size
  match lines[line]? with
  | none => .absent 0
  | some start =>
    if start.offset = offset then .found line
    else if start.offset < offset then .absent (line + 1)
    else .absent line

/-- The line of an offset, which must not lie before all lines. -/
def line? (index : LineIndex) (offset : Nat) : Option Nat :=
  match find index.lines offset with
  | .found line => some line
  | .absent 0 => none
  | .absent (next + 1) => some next

/-- How many characters the first `bytes` bytes of a text hold, if they end with a character of it. -/
def countChars? : Nat → List Char → Option Nat
  | 0, _ => some 0
  | _ + 1, [] => none
  | bytes + 1, c :: rest =>
    if c.utf8Size ≤ bytes + 1 then (countChars? (bytes + 1 - c.utf8Size) rest).map (· + 1) else none

/-- The location of a byte offset that does not lie before all lines.  One inside a character or
beyond the text is given the first column of its line. -/
def locate? (index : LineIndex) (offset : Nat) : Option Location := do
  let line ← index.line? offset
  let start ← index.lines[line]?
  return ⟨line + 1, (countChars? (offset - start.offset) start.following).getD 0 + 1⟩

/-- The location of a byte offset.  No offset lies before the first line of a text. -/
def locate (index : LineIndex) (offset : Nat) : Location :=
  (index.locate? offset).getD ⟨1, 1⟩

end LineIndex

end GraphQLEngine
