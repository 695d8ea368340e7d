/-
From source text to an executable document.

A parser makes a syntax tree of the text.  Its definitions are converted one
after the other: operations and fragments go into the document, and what an
executable document cannot hold is an error, as is a second fragment of one
name.  If there are errors, those of the syntax included, they are all
reported in the order of their locations.

The parser of this library stops at the first place that does not fit the
grammar, and then gives no definitions.
-/
import GraphQLEngine.Document.Conversion
import GraphQLEngine.Document.Grammar

namespace GraphQLEngine

/-- What is wrong with the text of an executable document. -/
inductive ParseError where
  /-- The text at this place is no token, or a token that fits no rule of the grammar. -/
  | malformed (location : Location)
  /-- A definition is neither an operation nor a fragment. -/
  | nonExecutable (kind : TypeSystemDefinition) (location : Location)
  /-- An earlier fragment has the same name. -/
  | fragmentCollision (name : Name) (location : Location)
deriving DecidableEq

/-- What a definition is called in error messages. -/
def TypeSystemDefinition.describe : TypeSystemDefinition → String
  | .directive => "a directive definition"
  | .schema => "a schema definition"
  | .schemaExtension => "a schema extension"
  | .type => "a type definition or extension"

namespace ParseError

def message : ParseError → String
  | .malformed _ => "syntax error: unexpected token"
  | .nonExecutable kind _ =>
    let described := kind.describe
    s!"an executable document must not contain {described}"
  | .fragmentCollision name _ => s!"the fragment `{name}` is defined multiple times in the document"

def location : ParseError → Location
  | .malformed location => location
  | .nonExecutable _ location => location
  | .fragmentCollision _ location => location

/-- Whether the first error may be reported before the second. -/
def inOrder (a b : ParseError) : Bool :=
  !b.location.before a.location

/-- The lines that report a list of errors. -/
def report (errors : List ParseError) : String :=
  "\n".intercalate (errors.map (fun e => e.location.text ++ ": " ++ e.message))

end ParseError

namespace Document

/-- A document under construction, with the errors found so far. -/
structure Draft where
  document : Document
  errors : List ParseError

/-- Adds a definition to a draft.  Of fragments with one name the first is kept.  A definition that
cannot be converted is passed over: the parser has reported an error in it. -/
def Draft.add (index : LineIndex) (draft : Draft) : DefinitionNode → Draft
  | .operation node =>
    match node.convert index with
    | some operation => { draft with document := draft.document.addOperation operation }
    | none => draft
  | .fragment node =>
    match node.convert index with
    | some fragment =>
      if draft.document.fragments.contains fragment.name then
        let location := fragment.location.getD (node.text.location index)
        { draft with errors := draft.errors ++ [.fragmentCollision fragment.name location] }
      else { draft with document := draft.document.addFragment fragment }
    | none => draft
  | .typeSystem kind text =>
    { draft with errors := draft.errors ++ [.nonExecutable kind (text.location index)] }

/-- The document of a syntax tree, or everything that is wrong with the text. -/
def ofTree (source : String) (tree : SyntaxTree) : Except (List ParseError) Document :=
  let index := LineIndex.ofChars source.toList
  let malformed := tree.errors.map (fun offset => .malformed (index.locate offset))
  let draft := tree.definitions.foldl (Draft.add index) ⟨empty, malformed⟩
  if draft.errors.isEmpty then .ok draft.document
  else .error (draft.errors.mergeSort ParseError.inOrder)

/-- Reads an executable document with a parser. -/
def parseWith (parser : String → SyntaxTree) (source : String) :
    Except (List ParseError) Document :=
  ofTree source (parser source)

end Document

/-- The tree of a source text, or its first place that does not fit: text that is no token, or a token
that the grammar does not expect among the others. -/
def SyntaxTree.ofSource (source : String) : SyntaxTree :=
  let tokens := Tokens.ofSource source
  match tokens.invalid, Reader.definitions.read tokens.tokens with
  | [], .ok (definitions, _) => ⟨[], definitions⟩
  | [], .error unexpected => ⟨[unexpected], []⟩
  | invalid :: _, .ok _ => ⟨[invalid], []⟩
  | invalid :: _, .error unexpected => ⟨[min invalid unexpected], []⟩

/-- Reads an executable document. -/
def Document.parse (source : String) : Except (List ParseError) Document :=
  parseWith SyntaxTree.ofSource source

end GraphQLEngine
