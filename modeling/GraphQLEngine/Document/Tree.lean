/-
Syntax trees of documents.

A tree is what a parser makes of a source text before anything is checked.
It is made for broken text too: every part of a node that the text may lack
is optional, and the places where the text does not fit the grammar are
listed beside the definitions.

Nodes that have a location in a document keep their text: all pieces of it,
those of the nodes below and ignored ones included.  A node's text may start
with any amount of ignored pieces; the node is placed at the first other one.
-/
import GraphQLEngine.Source.Token

namespace GraphQLEngine

/-! ## The text of a node -/

/-- The text of a node: the pieces in it and in the nodes below it, in the order of the text. -/
structure NodeText where
  /-- The byte offset at which the node starts, whatever it starts with. -/
  start : Nat
  pieces : List (Piece Lexeme)

namespace NodeText

/-- The first piece of a node that is not ignored text. -/
def first? (text : NodeText) : Option (Piece Lexeme) :=
  text.pieces.find? (fun piece => piece.kind.isSignificant)

/-- The byte offset at which a node is placed: that of its first piece that is not ignored, or where
the node starts if there is none. -/
def offset (text : NodeText) : Nat :=
  match text.first? with
  | some piece => piece.offset
  | none => text.start

/-- Where a node is placed. -/
def location (index : LineIndex) (text : NodeText) : Location :=
  index.locate text.offset

end NodeText

/-! ## Types and values -/

/-- A reference to a type. -/
inductive TypeNode where
  | named (name? : Option Name)
  | list (item? : Option TypeNode)
  /-- A type with an exclamation mark. -/
  | nonNull (type? : Option TypeNode)

/-- A value. -/
inductive ValueNode where
  | variable (name? : Option Name)
  | string (value : String)
  | number (text : NumberText)
  | boolean (value : Bool)
  | null
  | enumValue (name? : Option Name)
  | list (items : List ValueNode)
  | object (fields : List (Option Name × Option ValueNode))

structure ArgumentNode where
  name? : Option Name
  value? : Option ValueNode

structure DirectiveNode where
  name? : Option Name
  arguments : List ArgumentNode

/-! ## Selections -/

/-- A field, over the type `S` of selections. -/
structure FieldNode (S : Type) where
  text : NodeText
  /-- The name before a colon, if the colon is there. -/
  alias? : Option (Option Name)
  name? : Option Name
  arguments : List ArgumentNode
  directives : List DirectiveNode
  selections? : Option (List S)

/-- The use of a named fragment. -/
structure SpreadNode where
  text : NodeText
  name? : Option Name
  directives : List DirectiveNode

/-- A fragment written in place, over the type `S` of selections. -/
structure InlineFragmentNode (S : Type) where
  text : NodeText
  /-- The name after the word `on`, if the word is there. -/
  typeCondition? : Option (Option Name)
  directives : List DirectiveNode
  selections? : Option (List S)

/-- A member of a selection set. -/
inductive SelectionNode where
  | field (node : FieldNode SelectionNode)
  | spread (node : SpreadNode)
  | inlineFragment (node : InlineFragmentNode SelectionNode)

/-! ## Definitions -/

structure VariableDefinitionNode where
  text : NodeText
  name? : Option Name
  type? : Option TypeNode
  /-- The value after an equals sign, if the sign is there. -/
  default? : Option (Option ValueNode)

structure OperationNode where
  text : NodeText
  /-- The first word of an operation that is not written as a selection set only. -/
  keyword? : Option Name
  name? : Option Name
  variableDefinitions : List VariableDefinitionNode
  directives : List DirectiveNode
  selections? : Option (List SelectionNode)

structure FragmentNode where
  text : NodeText
  name? : Option Name
  /-- The name after the word `on`, if the word is there. -/
  typeCondition? : Option (Option Name)
  directives : List DirectiveNode
  selections? : Option (List SelectionNode)

/-- Kinds of definitions that do not belong into an executable document. -/
inductive TypeSystemDefinition where
  | directive
  | schema
  | schemaExtension
  | type
deriving DecidableEq

/-- A definition of a document.  Of a type system definition only the kind is kept. -/
inductive DefinitionNode where
  | operation (node : OperationNode)
  | fragment (node : FragmentNode)
  | typeSystem (kind : TypeSystemDefinition) (text : NodeText)

def DefinitionNode.text : DefinitionNode → NodeText
  | .operation node => node.text
  | .fragment node => node.text
  | .typeSystem _ text => text

/-- A source text by its definitions, with the byte offsets of what does not fit the grammar. -/
structure SyntaxTree where
  errors : List Nat
  definitions : List DefinitionNode

end GraphQLEngine
