/-
Executable documents: operations, fragments and the selections they hold.

A document is read from text (Document/Reading) or put together from its
parts.  Nothing here says that it fits a schema.  Nodes know where they
stand in the text, if they come from one.
-/
import GraphQLEngine.Double.Basic
import GraphQLEngine.OrderedMap
import GraphQLEngine.Source.Location
import GraphQLEngine.TypeRef

namespace GraphQLEngine

/-! ## Literals -/

/-- A value as it is written in a document. -/
inductive Literal where
  | null
  | enumValue (name : Name)
  | variableRef (name : Name)
  | string (value : String)
  | float (value : Double)
  | int (value : Int)
  | boolean (value : Bool)
  | list (items : List Literal)
  | object (fields : List (Name × Literal))
deriving Inhabited

namespace Literal

def isNull : Literal → Bool
  | .null => true
  | _ => false

/-- The variable that the whole literal refers to. -/
def reference? : Literal → Option Name
  | .variableRef name => some name
  | _ => none

end Literal

/-- An argument as it is written in a document. -/
structure Argument where
  name : Name
  value : Literal
deriving Inhabited

/-- The value of the first argument with a name. -/
def argument? (arguments : List Argument) (name : Name) : Option Literal :=
  (arguments.find? (fun a => a.name == name)).map Argument.value

/-- A directive with its arguments. -/
structure Directive where
  name : Name
  arguments : List Argument
deriving Inhabited

/-- The first directive with a name. -/
def directive? (directives : List Directive) (name : Name) : Option Directive :=
  directives.find? (fun d => d.name == name)

/-! ## Selections -/

/-- A field of a selection set, over the type `S` of selections. -/
structure FieldSelection (S : Type) where
  alias? : Option Name
  name : Name
  arguments : List Argument
  directives : List Directive
  /-- Empty for a field without sub-selections. -/
  selections : List S
  location : Option Location

/-- The use of a named fragment. -/
structure FragmentSpread where
  fragment : Name
  directives : List Directive
  location : Option Location

/-- A fragment written in place, over the type `S` of selections. -/
structure InlineFragment (S : Type) where
  typeCondition : Option Name
  directives : List Directive
  selections : List S
  location : Option Location

/-- A member of a selection set. -/
inductive Selection where
  | field (field : FieldSelection Selection)
  | spread (spread : FragmentSpread)
  | inlineFragment (inlineFragment : InlineFragment Selection)

instance : Inhabited Selection := ⟨.spread ⟨"", [], none⟩⟩

/-- A field selection of a document. -/
abbrev Field := FieldSelection Selection

instance : Inhabited Field := ⟨⟨none, "", [], [], [], none⟩⟩

/-- The key of a field in response data: its alias, or else its name. -/
def FieldSelection.responseKey {S : Type} (field : FieldSelection S) : Name :=
  field.alias?.getD field.name

def Selection.directives : Selection → List Directive
  | .field f => f.directives
  | .spread s => s.directives
  | .inlineFragment i => i.directives

def Selection.location : Selection → Option Location
  | .field f => f.location
  | .spread s => s.location
  | .inlineFragment i => i.location

/-! ## Definitions -/

/-- The kind of an operation. -/
inductive OperationKind where
  | query
  | mutation
  | subscription
deriving DecidableEq, Inhabited

def OperationKind.text : OperationKind → String
  | .query => "query"
  | .mutation => "mutation"
  | .subscription => "subscription"

instance : ToString OperationKind := ⟨OperationKind.text⟩

/-- A variable that an operation declares. -/
structure VariableDefinition where
  name : Name
  type : TypeRef
  default? : Option Literal
  location : Option Location
deriving Inhabited

structure Operation where
  kind : OperationKind
  name? : Option Name
  variableDefinitions : List VariableDefinition
  directives : List Directive
  selections : List Selection
  location : Option Location
deriving Inhabited

/-- A named fragment. -/
structure Fragment where
  name : Name
  typeCondition : Name
  directives : List Directive
  selections : List Selection
  location : Option Location
deriving Inhabited

/-- The operations and fragments of a request. -/
structure Document where
  operations : List Operation
  fragments : OrderedMap Fragment
deriving Inhabited

namespace Document

def empty : Document := ⟨[], []⟩

/-- Adds an operation at the end. -/
def addOperation (document : Document) (operation : Operation) : Document :=
  { document with operations := document.operations ++ [operation] }

/-- Adds a fragment, in the place of an earlier one with its name. -/
def addFragment (document : Document) (fragment : Fragment) : Document :=
  { document with fragments := document.fragments.insert fragment.name fragment }

end Document

end GraphQLEngine
