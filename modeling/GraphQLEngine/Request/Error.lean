/-
Reasons to refuse a request before any resolver is called, and the choice of
the operation to execute.
-/
import GraphQLEngine.Document.Basic
import GraphQLEngine.Input.Error

namespace GraphQLEngine

/-- Why a request is refused as a whole. -/
inductive RequestError where
  /-- The document has no operation. -/
  | noOperation
  /-- The document has several operations and no name was given. -/
  | ambiguousOperation
  /-- No operation has the given name. -/
  | unknownOperation (name : Name)
  /-- The schema has no root type for the operation. -/
  | undefinedRoot (kind : OperationKind)
  /-- Subscriptions are not executed. -/
  | subscription
  /-- The value of a variable, provided or default, does not fit its type. -/
  | invalidVariable (name : Name) (reason : InputError) (location : Option Location)
deriving DecidableEq

namespace RequestError

def message : RequestError → String
  | .noOperation => "the document does not contain any operation"
  | .ambiguousOperation => "operation name is required when the document contains multiple operations"
  | .unknownOperation name => s!"the document does not contain an operation named `{name}`"
  | .undefinedRoot kind => s!"the schema does not define a {kind} root operation type"
  | .subscription => "subscription operations cannot be executed"
  | .invalidVariable name reason _ =>
    let described := reason.message
    s!"invalid value for variable ${name}: {described}"

/-- Where in the document the reason lies. -/
def location : RequestError → Option Location
  | .invalidVariable _ _ location => location
  | .noOperation => none
  | .ambiguousOperation => none
  | .unknownOperation _ => none
  | .undefinedRoot _ => none
  | .subscription => none

end RequestError

/-- The operation with the given name, or without a name the only one of the document. -/
def Document.selectOperation (document : Document) : Option Name → Except RequestError Operation
  | some name =>
    match document.operations.find? (fun op => op.name? == some name) with
    | some op => .ok op
    | none => .error (.unknownOperation name)
  | none =>
    match document.operations with
    | [] => .error .noOperation
    | [op] => .ok op
    | _ :: _ :: _ => .error .ambiguousOperation

end GraphQLEngine
