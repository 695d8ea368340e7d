/-
Tokens of the query language.

A source text is split into pieces, one after the other.  Blanks, line ends,
byte order marks, comments and commas separate tokens and are otherwise
ignored; but a reader that looks past the next token stops at a comma, so a
token knows the ignored text before it.  Text that is no token is skipped, and
its places are listed apart from the tokens.  The list of tokens always ends
with `endOfText`.
-/
import GraphQLEngine.Name
import GraphQLEngine.Source.BlockText
import GraphQLEngine.Source.Escape
import GraphQLEngine.Source.Location
import GraphQLEngine.Source.NumberText

namespace GraphQLEngine

/-- What a token is. -/
inductive TokenKind where
  /-- One of the marks `! $ & ( ) : = @ [ ] { | }`. -/
  | mark (c : Char)
  /-- Three points. -/
  | ellipsis
  | name (name : Name)
  | number (text : NumberText)
  | string (value : String)
  | endOfText
deriving DecidableEq

/-- What may stand between tokens. -/
inductive IgnoredKind where
  /-- A blank, a line end or a byte order mark. -/
  | blank
  | comment
  | comma
deriving DecidableEq

/-- What a piece of a source text is. -/
inductive Lexeme where
  | token (kind : TokenKind)
  | ignored (kind : IgnoredKind)
  /-- Text that is no token. -/
  | invalid
deriving DecidableEq

/-- Whether a piece is more than ignored text. -/
def Lexeme.isSignificant : Lexeme → Bool
  | .token _ => true
  | .ignored _ => false
  | .invalid => true

/-- A piece of a source text: what it is, the byte offset of its first character, and its
characters. -/
structure Piece (κ : Type) where
  kind : κ
  offset : Nat
  text : List Char
deriving DecidableEq

/-- A token with its place and its text, and with the ignored text between the token before it and
itself. -/
structure Token where
  kind : TokenKind
  offset : Nat
  text : List Char
  before : List (Piece IgnoredKind)
deriving DecidableEq

namespace Token

/-! ## Ignored text -/

/-- The character of a byte order mark. -/
def byteOrderMark : Char := Char.ofNat 0xFEFF

/-- Characters between tokens. -/
def isBlank (c : Char) : Bool :=
  c == ' ' || c == '\t' || c == '\n' || c == '\r' || c == byteOrderMark

def isLineEnd (c : Char) : Bool :=
  c == '\n' || c == '\r'

/-- Marks that are tokens of one character. -/
def marks : List Char :=
  ['!', '$', '&', '(', ')', ':', '=', '@', '[', ']', '\x7b', '|', '\x7d']

/-! ## Quoted text -/

/-- The character of `\u` with braces, after the opening brace. -/
def readBracedUnicode (s : List Char) : Option (Char × List Char) := do
  let digits := s.takeWhile (fun c => (Escape.hexValue? c).isSome)
  if digits.isEmpty then none
  else
    let n := digits.foldl (fun n c => 16 * n + (Escape.hexValue? c).getD 0) 0
    match s.dropWhile (fun c => (Escape.hexValue? c).isSome) with
    | '\x7d' :: rest => if n.isValidChar then some (Char.ofNat n, rest) else none
    | _ => none

/-- The characters up to the closing quote, in reverse order, added to `read`.

Each step consumes a character, so the length of the text is fuel enough. -/
def readString : Nat → List Char → List Char → Option (List Char × List Char)
  | 0, _, _ => none
  | _ + 1, _, [] => none
  | fuel + 1, read, c :: rest =>
    if c == '"' then some (read, rest)
    else if isLineEnd c then none
    else if c == '\\' then
      match rest with
      | [] => none
      | 'u' :: '\x7b' :: rest => do
        let (c, rest) ← readBracedUnicode rest
        readString fuel (c :: read) rest
      | 'u' :: rest => do
        let (c, rest) ← Escape.readUnicode rest
        readString fuel (c :: read) rest
      | e :: rest => do
        let c ← Escape.simple? e
        readString fuel (c :: read) rest
    else readString fuel (c :: read) rest

/-- The characters of a string after its opening quote, in reverse order.

A line end is admitted in one place, directly after that quote. -/
def readQuoted (s : List Char) : Option (List Char × List Char) :=
  match s with
  | [] => none
  | c :: rest => if isLineEnd c then readString s.length [c] rest else readString (s.length + 1) [] s

/-- The text after the next quote that does not follow a backslash. -/
def skipQuoted : List Char → List Char
  | [] => []
  | '\\' :: _ :: rest => skipQuoted rest
  | c :: rest => if c == '"' then rest else skipQuoted rest

/-- The characters up to the closing triple quote, in reverse order, added to `read`.  A triple
quote after a backslash stands for itself. -/
def readBlock : List Char → List Char → Option (List Char × List Char)
  | _, [] => none
  | read, '"' :: '"' :: '"' :: rest => some (read, rest)
  | read, '\\' :: '"' :: '"' :: '"' :: rest => readBlock ('"' :: '"' :: '"' :: read) rest
  | read, c :: rest => readBlock (c :: read) rest

/-! ## One lexeme -/

/-- A number, which must not run into a name or a point. -/
def readNumber (s : List Char) : Option (NumberText × List Char) := do
  let (number, rest) ← NumberText.read s
  match rest with
  | [] => some (number, rest)
  | c :: _ => if Name.isStart c || c == '.' || c.isDigit then none else some (number, rest)

/-- Three points, of which `rest` follows the first. -/
def readPoints : List Char → Lexeme × List Char
  | '.' :: '.' :: rest => (.token .ellipsis, rest)
  | '.' :: rest => (.invalid, rest)
  | rest => (.invalid, rest)

/-- A string or block string after its first quote. -/
def readAnyString : List Char → Lexeme × List Char
  | '"' :: '"' :: rest =>
    match readBlock [] rest with
    | some (read, rest) => (.token (.string (String.ofList (BlockText.value read.reverse))), rest)
    | none => (.invalid, [])
  | rest =>
    match readQuoted rest with
    | some (read, after) => (.token (.string (String.ofList read.reverse)), after)
    | none => (.invalid, skipQuoted rest)

/-- The lexeme at the front of a text that starts with `c`, and the text after it. -/
def readLexeme (c : Char) (rest : List Char) : Lexeme × List Char :=
  if isBlank c then (.ignored .blank, rest)
  else if c == '#' then (.ignored .comment, rest.dropWhile (fun c => !isLineEnd c))
  else if marks.contains c then (.token (.mark c), rest)
  else if c == ',' then (.ignored .comma, rest)
  else if Name.isStart c then
    (.token (.name (String.ofList (c :: rest.takeWhile Name.isContinue))),
      rest.dropWhile Name.isContinue)
  else if c == '.' then readPoints rest
  else if c == '"' then readAnyString rest
  else if c == '-' || c.isDigit then
    match readNumber (c :: rest) with
    | some (number, rest) => (.token (.number number), rest)
    | none => (.invalid, rest.dropWhile (fun c => Name.isContinue c || c == '.'))
  else (.invalid, rest)

/-! ## All pieces -/

/-- The pieces of a text that starts at byte `offset`.  Every step consumes a character, so fuel beyond
the length of the text is enough. -/
def scan : Nat → Nat → List Char → List (Piece Lexeme)
  | 0, _, _ => []
  | _ + 1, offset, [] => [⟨.token .endOfText, offset, []⟩]
  | fuel + 1, offset, c :: rest =>
    let (lexeme, after) := readLexeme c rest
    let text := (c :: rest).take ((c :: rest).length - after.length)
    ⟨lexeme, offset, text⟩ :: scan fuel (offset + byteLength text) after

/-- The tokens among pieces; `before` is ignored text that stands before the first piece. -/
def ofPieces : List (Piece IgnoredKind) → List (Piece Lexeme) → List Token
  | _, [] => []
  | before, ⟨.token kind, offset, text⟩ :: rest => ⟨kind, offset, text, before⟩ :: ofPieces [] rest
  | before, ⟨.ignored kind, offset, text⟩ :: rest =>
    ofPieces (before ++ [⟨kind, offset, text⟩]) rest
  | before, ⟨.invalid, _, _⟩ :: rest => ofPieces before rest

/-- Whether a comma stands between a token and the one before it. -/
def afterComma (token : Token) : Bool :=
  token.before.any (fun piece => piece.kind == .comma)

/-- Where the ignored text before a token starts. -/
def start (token : Token) : Nat :=
  token.before.head?.elim token.offset Piece.offset

/-- A token by itself. -/
def piece (token : Token) : Piece Lexeme :=
  ⟨.token token.kind, token.offset, token.text⟩

/-- A token after the ignored text before it. -/
def pieces (token : Token) : List (Piece Lexeme) :=
  token.before.map (fun p => ⟨.ignored p.kind, p.offset, p.text⟩) ++ [token.piece]

end Token

/-- A source text by its tokens and the byte offsets of text that is no token. -/
structure Tokens where
  tokens : List Token
  invalid : List Nat
deriving DecidableEq

/-- Splits a source text. -/
def Tokens.ofSource (source : String) : Tokens :=
  let text := source.toList
  let pieces := Token.scan (text.length + 1) 0 text
  { tokens := Token.ofPieces [] pieces
    invalid := (pieces.filter (fun piece => piece.kind == .invalid)).map Piece.offset }

end GraphQLEngine
