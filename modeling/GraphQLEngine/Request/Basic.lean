/-
Requests, and the bounds within which they are executed.

A request names the document and the operation to execute, and brings the
values of variables and the root object.  Its depth bounds how far
execution may follow nested selection sets.  The depth that a document
has by itself is enough unless its fragments form a cycle.
-/
import GraphQLEngine.Document.Basic
import GraphQLEngine.Resolver

namespace GraphQLEngine

/-! ## Depth -/

mutual

/-- How many selection sets are nested within a selection, apart from named fragments. -/
def Selection.nesting : Selection → Nat
  | .field ⟨_, _, _, _, selections, _⟩ => Selection.nestingOf selections + 1
  | .spread _ => 0
  | .inlineFragment ⟨_, _, selections, _⟩ => Selection.nestingOf selections

def Selection.nestingOf : List Selection → Nat
  | [] => 0
  | s :: rest => max s.nesting (Selection.nestingOf rest)

end

/-- How many levels of selection sets may open in a document whose fragments form a cycle, beyond
those that it spells out.  Only data of that depth can reach the limit. -/
def cycleAllowance : Nat := 10000

/-- How deep selection sets can nest in the data of a document's operations.  Without cycles no
fragment is entered twice on the way down, so the nestings of all definitions add up to a bound. -/
def Document.depthBound (document : Document) : Nat :=
  document.operations.foldr (fun op n => Selection.nestingOf op.selections + n) 0
    + document.fragments.foldr (fun f n => Selection.nestingOf f.2.selections + n) 0
    + cycleAllowance

/-! ## Requests -/

/-- The usual width. -/
def defaultWidth : Nat := 30

/-- The usual number of rounds, which is beyond what any run takes in practice. -/
def defaultRounds : Nat := 1000000000000

/-- What is to be executed. -/
structure Request (ω : Type) where
  document : Document
  operationName : Option Name := none
  /-- Values of variables as the client gave them. -/
  variableValues : JsonObject := []
  /-- The object that top-level fields belong to. -/
  root : ObjectValue ω
  /-- How deep selection sets may nest in the data.  Work below need not finish. -/
  depth : Nat := document.depthBound
  /-- How many children of a node may be at work together, if that is limited.  A node with more
  children has them take turns. -/
  width : Option Nat := some defaultWidth
  /-- How many rounds the run may take before it is cut off. -/
  rounds : Nat := defaultRounds

end GraphQLEngine
