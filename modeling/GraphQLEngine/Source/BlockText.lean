/-
The value of a block string.

The indentation that all lines after the first have in common is removed,
blank lines at both ends are dropped, and the remaining lines are joined by
line feeds, whatever ended them in the source.
-/

namespace GraphQLEngine

namespace BlockText

/-- A space or a tab. -/
def isIndent (c : Char) : Bool :=
  c == ' ' || c == '\t'

/-- Adds a character to the first of the lines. -/
def consToFirst (c : Char) : List (List Char) → List (List Char)
  | [] => [[c]]
  | line :: rest => (c :: line) :: rest

/-- The lines of a text, ended by a line feed, a carriage return, or both in this order. -/
def lines : List Char → List (List Char)
  | [] => [[]]
  | '\r' :: '\n' :: rest => [] :: lines rest
  | c :: rest => if c == '\n' || c == '\r' then [] :: lines rest else consToFirst c (lines rest)

/-- Whether a line holds nothing but indentation. -/
def isBlank (line : List Char) : Bool :=
  line.all isIndent

/-- The width of a line's indentation. -/
def indentation (line : List Char) : Nat :=
  (line.takeWhile isIndent).length

/-- The least indentation among the lines that are not blank. -/
def commonIndentation (lines : List (List Char)) : Option Nat :=
  ((lines.filter (fun l => !isBlank l)).map indentation).min?

/-- Removes the common indentation from all lines but the first. -/
def dedent : List (List Char) → List (List Char)
  | [] => []
  | first :: rest =>
    match commonIndentation rest with
    | none => first :: rest
    | some n => first :: rest.map (List.drop n)

/-- Drops blank lines at both ends. -/
def trimBlank (lines : List (List Char)) : List (List Char) :=
  ((lines.dropWhile isBlank).reverse.dropWhile isBlank).reverse

/-- The value of a block string, given the text between its quotes. -/
def value (raw : List Char) : List Char :=
  List.intercalate ['\n'] (trimBlank (dedent (lines raw)))

end BlockText

end GraphQLEngine
