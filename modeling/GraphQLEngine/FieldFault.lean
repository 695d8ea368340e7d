/-
What can go wrong with a field.

A fault names its cause; the error that a response reports for it adds the
position in the data and the places of the field in the document.
-/
import GraphQLEngine.Input.Error
import GraphQLEngine.Resolver
import GraphQLEngine.Selection.Collection

namespace GraphQLEngine

/-- Why the object type of a value is not known. -/
inductive TypeResolutionError where
  /-- The type resolver names no type. -/
  | noTypeNamed
  /-- The tests of two possible types accept the value. -/
  | severalMatch (first second : Name)
  /-- No test accepts the value, and it does not name its type. -/
  | noneMatches
  | notPossible (name abstractType : Name)
  | notObject (name : Name)
deriving DecidableEq

def TypeResolutionError.message : TypeResolutionError → String
  | .noTypeNamed => "the type resolver returned no type"
  | .severalMatch first second => s!"both {first} and {second} match the value"
  | .noneMatches => "no possible type matches the value"
  | .notPossible name abstractType => s!"{name} is not a possible type of {abstractType}"
  | .notObject name => s!"{name} is not an object type"

/-- Why a value is no result of a leaf type. -/
inductive LeafError where
  /-- The scalar refuses the value, with its own message. -/
  | refusedByScalar (message : String)
  | notInEnum (enum : Name) (value : Json)
  | notLeaf (name : Name)
deriving DecidableEq

def LeafError.message : LeafError → String
  | .refusedByScalar message => message
  | .notInEnum enum value => s!"Enum {enum} cannot represent value: " ++ value.text
  | .notLeaf name => s!"{name} is not a leaf type"

/-- What a resolver returned, as messages call it. -/
inductive Found where
  | json (value : Json)
  | list
  | object
  /-- An object that its type's own test refuses. -/
  | objectOfOtherType
deriving DecidableEq

def Found.text : Found → String
  | .json value => value.text
  | .list => "a list"
  | .object => "an object"
  | .objectOfOtherType => "an object that is not of the expected type"

/-- What a type asks for, as messages call it. -/
inductive Expected where
  | objectOf (name : Name)
  | undefinedType (name : Name)
  | nonListType (type : TypeRef)
  | leafOf (name : Name)
deriving DecidableEq

def Expected.text : Expected → String
  | .objectOf name => s!"an object of type {name}"
  | .undefinedType name => s!"undefined type {name}"
  | .nonListType type => s!"non-list type {type}"
  | .leafOf name => s!"a leaf value of type {name}"

/-- Why a field, or an item of its list, has no value. -/
inductive FieldFault where
  | resolverFailure (failure : ResolverFailure)
  | missingArgument (argument : Name) (type : TypeRef)
  | invalidArgument (argument : Name) (reason : InputError)
  | ambiguousType (abstractType : Name) (reason : TypeResolutionError)
  | invalidList (type : TypeRef) (found : Found)
  | nonNullViolation (type : TypeRef)
  | leafCoercion (reason : LeafError)
  | unexpectedValue (found : Found) (expected : Expected)
deriving DecidableEq

namespace FieldFault

def message : FieldFault → String
  | .resolverFailure failure => failure.message
  | .missingArgument argument type => s!"argument `{argument}` of required type {type} was not provided"
  | .invalidArgument argument reason =>
    let described := reason.message
    s!"invalid value for argument `{argument}`: {described}"
  | .ambiguousType abstractType reason =>
    let described := reason.message
    s!"could not determine the object type for abstract type {abstractType}: {described}"
  | .invalidList type found =>
    let described := found.text
    s!"expected a list for type {type}, resolver returned {described}"
  | .nonNullViolation type => s!"non-null type {type} resolved to null"
  | .leafCoercion reason => reason.message
  | .unexpectedValue found expected =>
    let (a, b) := (found.text, expected.text)
    s!"resolver returned {a}, expected {b}"

/-- Further information that a resolver attached to its failure. -/
def extensions : FieldFault → JsonObject
  | .resolverFailure failure => failure.extensions
  | _ => []

/-- The error of a fault at a position, with a location for each field merged there. -/
def toError (fault : FieldFault) (path : Path) (group : FieldGroup) : ResponseError where
  message := fault.message
  locations := group.locations
  path := path
  extensions := fault.extensions

end FieldFault

end GraphQLEngine
