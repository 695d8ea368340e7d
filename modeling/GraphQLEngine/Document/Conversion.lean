/-
From syntax trees to documents.

Each conversion gives nothing for a node that lacks a part it needs.  Within
a list such nodes are passed over, elsewhere they spoil the node around them.
Locations are found when nodes are converted, from their texts.
-/
import GraphQLEngine.Document.Basic
import GraphQLEngine.Document.Tree
import GraphQLEngine.IntRange

namespace GraphQLEngine

/-- What becomes of the nodes that can be converted. -/
def collect {N T : Type} (convert : N → Option T) (nodes : List N) : List T :=
  nodes.filterMap convert

/-! ## Types and values -/

def TypeNode.convert : TypeNode → Option TypeRef
  | .named name? => name?.map .named
  | .list (some item) => item.convert.map .list
  | .list none => none
  | .nonNull (some type) => type.convert.map TypeRef.nonNull
  | .nonNull none => none

/-- The literal of a number: an integer where the signed 64-bit range holds it, else a float. -/
def NumberText.literal (text : NumberText) : Literal :=
  let n := text.wholeValue
  if text.isWhole && IntRange.signed64 n then .int n else .float text.toDouble

mutual

def ValueNode.convert : ValueNode → Option Literal
  | .variable name? => name?.map .variableRef
  | .string s => some (.string s)
  | .number text => some text.literal
  | .boolean b => some (.boolean b)
  | .null => some .null
  | .enumValue name? => name?.map .enumValue
  | .list items => some (.list (ValueNode.convertItems items))
  | .object fields => some (.object (ValueNode.convertFields fields))

def ValueNode.convertItems : List ValueNode → List Literal
  | [] => []
  | item :: rest => item.convert.toList ++ ValueNode.convertItems rest

def ValueNode.convertFields : List (Option Name × Option ValueNode) → List (Name × Literal)
  | [] => []
  | (some name, some value) :: rest =>
    (value.convert.map (fun l => (name, l))).toList ++ ValueNode.convertFields rest
  | (some _, none) :: rest => ValueNode.convertFields rest
  | (none, _) :: rest => ValueNode.convertFields rest

end

def ArgumentNode.convert (node : ArgumentNode) : Option Argument := do
  return ⟨← node.name?, ← (← node.value?).convert⟩

def DirectiveNode.convert (node : DirectiveNode) : Option Directive := do
  return ⟨← node.name?, collect ArgumentNode.convert node.arguments⟩

/-- A part that may be missing as a whole, but must be complete if it is there. -/
def convertOptional {N T : Type} (convert : N → Option T) : Option N → Option (Option T)
  | none => some none
  | some node => (convert node).map some

/-! ## Selections -/

def SpreadNode.convert (index : LineIndex) (node : SpreadNode) : Option FragmentSpread := do
  return {
    fragment := ← node.name?
    directives := collect DirectiveNode.convert node.directives
    location := some (node.text.location index) }

mutual

def SelectionNode.convert (index : LineIndex) : SelectionNode → Option Selection
  | .field ⟨text, alias?, name?, arguments, directives, selections?⟩ => do
    return .field {
      alias? := ← convertOptional id alias?
      name := ← name?
      arguments := collect ArgumentNode.convert arguments
      directives := collect DirectiveNode.convert directives
      selections := match selections? with
        | some selections => SelectionNode.convertAll index selections
        | none => []
      location := some (text.location index) }
  | .spread node => (node.convert index).map .spread
  | .inlineFragment ⟨text, typeCondition?, directives, selections?⟩ => do
    return .inlineFragment {
      typeCondition := ← convertOptional id typeCondition?
      directives := collect DirectiveNode.convert directives
      selections := ← match selections? with
        | some selections => some (SelectionNode.convertAll index selections)
        | none => none
      location := some (text.location index) }

def SelectionNode.convertAll (index : LineIndex) : List SelectionNode → List Selection
  | [] => []
  | node :: rest => (node.convert index).toList ++ SelectionNode.convertAll index rest

end

/-! ## Definitions -/

/-- The kind of operation that a word stands for. -/
def OperationKind.ofKeyword? (keyword : Name) : Option OperationKind :=
  if keyword = "query" then some .query
  else if keyword = "mutation" then some .mutation
  else if keyword = "subscription" then some .subscription
  else none

def VariableDefinitionNode.convert (index : LineIndex) (node : VariableDefinitionNode) :
    Option VariableDefinition := do
  let default? ← convertOptional (· >>= ValueNode.convert) node.default?
  return {
    name := ← node.name?
    type := ← (← node.type?).convert
    default? := default?
    location := some (node.text.location index) }

/-- The kind of an operation, which is a query without a keyword. -/
def OperationNode.kind? (node : OperationNode) : Option OperationKind :=
  match node.keyword? with
  | some keyword => OperationKind.ofKeyword? keyword
  | none => some .query

def OperationNode.convert (index : LineIndex) (node : OperationNode) : Option Operation := do
  let kind ← node.kind?
  let selections ← node.selections?
  return {
    kind := kind
    name? := node.name?
    variableDefinitions := collect (VariableDefinitionNode.convert index) node.variableDefinitions
    directives := collect DirectiveNode.convert node.directives
    selections := SelectionNode.convertAll index selections
    location := some (node.text.location index) }

def FragmentNode.convert (index : LineIndex) (node : FragmentNode) : Option Fragment := do
  let name ← node.name?
  let typeCondition ← node.typeCondition?.join
  let selections ← node.selections?
  return {
    name := name
    typeCondition := typeCondition
    directives := collect DirectiveNode.convert node.directives
    selections := SelectionNode.convertAll index selections
    location := some (node.text.location index) }

end GraphQLEngine
