/-
Drafts of schemas, and the rules that make a draft a schema.

A draft lists definitions in any order.  Its violations are listed in a
fixed order: names of definitions, root types, then each registered type in
turn.  A draft without violations becomes a schema.
-/
import GraphQLEngine.Schema.BuiltIn

namespace GraphQLEngine

/-- The parts of a schema, before they are checked. -/
structure SchemaDraft (ω σ : Type) where
  query : Option Name := none
  mutation : Option Name := none
  types : List (TypeDefinition ω σ) := []

/-! ## Violations -/

/-- A place in a draft that refers to a type. -/
inductive Coordinate where
  | field (typeName fieldName : Name)
  | argument (typeName fieldName argumentName : Name)
  | interfaces (typeName : Name)
  | members (unionName : Name)
deriving DecidableEq

/-- A place of a draft as error messages call it. -/
def Coordinate.text : Coordinate → String
  | .field typeName fieldName => s!"the field `{typeName}.{fieldName}`"
  | .argument typeName fieldName argumentName =>
    s!"the argument `{typeName}.{fieldName}({argumentName}:)`"
  | .interfaces typeName => s!"the implements list of `{typeName}`"
  | .members unionName => s!"the members of union `{unionName}`"

instance : ToString Coordinate := ⟨Coordinate.text⟩

/-- A rule that a draft breaks, and where. -/
inductive SchemaViolation where
  | invalidName (name : Name)
  | duplicateTypeName (name : Name)
  | undefinedType (name : Name) (place : Coordinate)
  | missingQueryType
  | undefinedRootType (kind : OperationKind) (name : Name)
  | rootTypeNotObject (kind : OperationKind) (name : Name) (found : String)
  | unionMemberNotObject (unionName member : Name) (found : String)
  | notAnInterface (object interface : Name) (found : String)
  | missingInterfaceField (object interface field : Name)
  | outputTypeAsArgument (place : Coordinate) (type : TypeRef) (found : String)
deriving DecidableEq

def SchemaViolation.message : SchemaViolation → String
  | .invalidName name => Name.Invalid.message ⟨name⟩
  | .duplicateTypeName name => s!"the type `{name}` is defined multiple times"
  | .undefinedType name place => s!"the type `{name}` used by {place} is not defined"
  | .missingQueryType => "the schema does not define a query root operation type"
  | .undefinedRootType kind name => s!"the {kind} root operation type `{name}` is not defined"
  | .rootTypeNotObject kind name found =>
    s!"the {kind} root operation type `{name}` must be an object type, found {found}"
  | .unionMemberNotObject unionName member found =>
    s!"the member `{member}` of union `{unionName}` must be an object type, found {found}"
  | .notAnInterface object interface found =>
    s!"`{object}` implements `{interface}`, which is {found} rather than an interface type"
  | .missingInterfaceField object interface field =>
    s!"`{object}` implements `{interface}` but does not define its field `{field}`"
  | .outputTypeAsArgument place type found =>
    s!"{place} must have an input type, found {found} `{type}`"

namespace SchemaDraft

variable {ω σ : Type}

/-! ## Registering definitions -/

/-- Everything that a draft defines, the built-in scalars before its own types. -/
def definitions (draft : SchemaDraft ω σ) : List (TypeDefinition ω σ) :=
  BuiltIn.scalars.map .scalar ++ draft.types

/-- Registers a definition unless its name is taken. -/
def register (types : OrderedMap (TypeDefinition ω σ)) (definition : TypeDefinition ω σ) :
    OrderedMap (TypeDefinition ω σ) :=
  if types.contains definition.name then types else types ++ [(definition.name, definition)]

/-- The registered types: of definitions with one name the first. -/
def registered (draft : SchemaDraft ω σ) : OrderedMap (TypeDefinition ω σ) :=
  draft.definitions.foldl register []

/-- Invalid and repeated names among definitions, given the types registered before them. -/
def nameViolations : OrderedMap (TypeDefinition ω σ) → List (TypeDefinition ω σ) → List SchemaViolation
  | _, [] => []
  | types, d :: rest =>
    (if Name.isValid d.name then [] else [.invalidName d.name])
      ++ (if types.contains d.name then [.duplicateTypeName d.name] else [])
      ++ nameViolations (register types d) rest

/-! ## Checking types -/

/-- What is wrong with the name of a root type. -/
def rootViolations (types : OrderedMap (TypeDefinition ω σ)) (kind : OperationKind) (name : Name) :
    List SchemaViolation :=
  match types.get? name with
  | some (.object _) => []
  | some other => [.rootTypeNotObject kind name other.describe]
  | none => [.undefinedRootType kind name]

/-- What is wrong with an argument of a field. -/
def argumentViolations (types : OrderedMap (TypeDefinition ω σ)) (typeName fieldName : Name)
    (argument : Name × ArgumentDefinition) : List SchemaViolation :=
  let place := Coordinate.argument typeName fieldName argument.1
  let name := argument.2.type.innerName
  match types.get? name with
  | some definition =>
    if definition.isInput then []
    else [.outputTypeAsArgument place argument.2.type definition.describe]
  | none => [.undefinedType name place]

/-- What is wrong with a field of an object or interface type. -/
def fieldViolations (types : OrderedMap (TypeDefinition ω σ)) (typeName : Name)
    (field : Name × FieldDefinition ω σ) : List SchemaViolation :=
  let name := field.2.type.innerName
  (if Name.isValid field.1 then [] else [.invalidName field.1])
    ++ (if types.contains name then [] else [.undefinedType name (.field typeName field.1)])
    ++ field.2.arguments.flatMap (argumentViolations types typeName field.1)

/-- What is wrong with an interface that an object type implements. -/
def interfaceViolations (types : OrderedMap (TypeDefinition ω σ)) (object : ObjectType ω σ)
    (interface : Name) : List SchemaViolation :=
  match types.get? interface with
  | some (.interface t) =>
    (t.fields.keys.filter (fun f => !object.fields.contains f)).map
      (.missingInterfaceField object.name interface)
  | some other => [.notAnInterface object.name interface other.describe]
  | none => [.undefinedType interface (.interfaces object.name)]

/-- What is wrong with a member of a union. -/
def memberViolations (types : OrderedMap (TypeDefinition ω σ)) (unionName member : Name) :
    List SchemaViolation :=
  match types.get? member with
  | some (.object _) => []
  | some other => [.unionMemberNotObject unionName member other.describe]
  | none => [.undefinedType member (.members unionName)]

/-- What is wrong with a registered type. -/
def typeViolations (types : OrderedMap (TypeDefinition ω σ)) : TypeDefinition ω σ → List SchemaViolation
  | .object t =>
    t.fields.flatMap (fieldViolations types t.name) ++ t.interfaces.flatMap (interfaceViolations types t)
  | .interface t => t.fields.flatMap (fieldViolations types t.name)
  | .union t => t.members.flatMap (memberViolations types t.name)
  | .scalar _ => []
  | .enum _ => []

/-- Everything that is wrong with a draft. -/
def violations (draft : SchemaDraft ω σ) : List SchemaViolation :=
  let types := draft.registered
  nameViolations [] draft.definitions
    ++ (match draft.query with
      | some name => rootViolations types .query name
      | none => [.missingQueryType])
    ++ (match draft.mutation with
      | some name => rootViolations types .mutation name
      | none => [])
    ++ types.flatMap (fun t => typeViolations types t.2)

/-! ## Building -/

/-- Lists an object type under an abstract type. -/
def addPossible (possible : OrderedMap (List Name)) (abstractType object : Name) :
    OrderedMap (List Name) :=
  possible.insert abstractType (insertNew ((possible.get? abstractType).getD []) object)

/-- Enters a type into the index of possible types: an object type under the interfaces that it
implements, a union with its members, and an interface with at least an empty list. -/
def enterPossible (possible : OrderedMap (List Name)) : TypeDefinition ω σ → OrderedMap (List Name)
  | .object t => t.interfaces.foldl (fun index i => addPossible index i t.name) possible
  | .interface t => possible.insert t.name ((possible.get? t.name).getD [])
  | .union t =>
    t.members.foldl (fun index m => addPossible index t.name m)
      (possible.insert t.name ((possible.get? t.name).getD []))
  | .scalar _ => possible
  | .enum _ => possible

/-- The index of possible types, in one pass over the registered types. -/
def possibleIndex (types : OrderedMap (TypeDefinition ω σ)) : OrderedMap (List Name) :=
  types.foldl (fun index t => enterPossible index t.2) []

/-- The schema of a draft, or everything that is wrong with it. -/
def build (draft : SchemaDraft ω σ) : Except (List SchemaViolation) (Schema ω σ) :=
  match draft.query, draft.violations with
  | some query, [] =>
    let types := draft.registered
    .ok { queryType := query, mutationType := draft.mutation, types, possible := possibleIndex types }
  | _, violations => .error violations

end SchemaDraft

end GraphQLEngine
