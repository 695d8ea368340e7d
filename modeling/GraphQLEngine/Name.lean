/-
Names of types, fields, arguments, variables and fragments.

A name is any text; `Name.isValid` says which texts the grammar of the query
language admits.  The schema checks names when it is built, and a document
that was read from text holds valid names only.

The grammar is about characters: a lexer tests these with `isStart` and
`isContinue`.  A text is tested by the bytes of its encoding.
-/

namespace GraphQLEngine

/-- A name, not necessarily a valid one. -/
abbrev Name := String

namespace Name

/-- A letter of the Latin alphabet without marks, or an underscore. -/
def isStart (c : Char) : Bool :=
  ('a' ≤ c && c ≤ 'z') || ('A' ≤ c && c ≤ 'Z') || c == '_'

/-- A start character or a decimal digit. -/
def isContinue (c : Char) : Bool :=
  isStart c || ('0' ≤ c && c ≤ '9')

/-- The byte of a start character. -/
def isStartByte (b : UInt8) : Bool :=
  ('a'.toUInt8 ≤ b && b ≤ 'z'.toUInt8) || ('A'.toUInt8 ≤ b && b ≤ 'Z'.toUInt8) || b == '_'.toUInt8

/-- The byte of a start character or of a decimal digit. -/
def isContinueByte (b : UInt8) : Bool :=
  isStartByte b || ('0'.toUInt8 ≤ b && b ≤ '9'.toUInt8)

/-- A byte that starts a name, followed by bytes that continue it. -/
def isValidBytes : List UInt8 → Bool
  | [] => false
  | first :: rest => isStartByte first && rest.all isContinueByte

/-- Whether a text is a name of the grammar. -/
def isValid (name : Name) : Bool :=
  isValidBytes name.toUTF8.data.toList

/-- A text that is refused as a name. -/
structure Invalid where
  name : Name
deriving DecidableEq

def Invalid.message (e : Invalid) : String :=
  let name := e.name
  s!"`{name}` is not a valid GraphQL name"

/-- Accepts a text as a name if it is a valid one. -/
def check (text : String) : Except Invalid Name :=
  if isValid text then .ok text else .error ⟨text⟩

end Name

end GraphQLEngine
