/-
Responses: data, and the errors found on the way to it.

An error of a field says where in the data it belongs by a path of response
keys and list indices.
-/
import GraphQLEngine.Json.Basic
import GraphQLEngine.Request.Error

namespace GraphQLEngine

/-- A step into response data. -/
inductive PathSegment where
  | key (key : Name)
  | index (index : Nat)
deriving DecidableEq

def PathSegment.text : PathSegment → String
  | .key k => k
  | .index i => toString i

/-- A position in response data, from the root. -/
abbrev Path := List PathSegment

/-- The segments of a path with slashes between them. -/
def Path.text (path : Path) : String :=
  "/".intercalate (path.map PathSegment.text)

/-- An error as a response reports it. -/
structure ResponseError where
  message : String
  locations : List Location := []
  path : Path := []
  extensions : JsonObject := []
deriving DecidableEq

/-- The message, after the first location if there is one. -/
def ResponseError.text (e : ResponseError) : String :=
  match e.locations with
  | [] => e.message
  | first :: _ => first.text ++ " " ++ e.message

/-- The response to a request that was executed. -/
structure Response where
  errors : List ResponseError
  /-- Absent when a null reached the root. -/
  data : Option JsonObject
deriving DecidableEq

/-- Whether no field failed. -/
def Response.isOk (r : Response) : Bool :=
  r.errors.isEmpty

/-- The response to a request that was refused: it has no data entry at all. -/
structure Refusal where
  errors : List ResponseError
deriving DecidableEq

/-- The error that reports why a request is refused. -/
def RequestError.toResponseError (e : RequestError) : ResponseError :=
  { message := e.message, locations := e.location.toList }

def RequestError.toRefusal (e : RequestError) : Refusal :=
  ⟨[e.toResponseError]⟩

end GraphQLEngine
