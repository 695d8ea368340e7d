/-
Schemas: the named types that a request can refer to.

Definitions carry the functions that make them run: resolvers of fields,
coercions of scalars, and the tests that tell the object types of an
abstract type apart.  A schema comes from a draft (Schema/Draft) that has no
violations.
-/
import GraphQLEngine.Resolver

namespace GraphQLEngine

/-! ## Definitions -/

/-- A scalar type with the coercions of results and of inputs. -/
structure ScalarType where
  name : Name
  description : Option String := none
  /-- Coerces a resolved value, or says why it cannot be represented. -/
  serialize : Json → Except String Json := .ok
  /-- Coerces an input value, or says why it cannot be represented. -/
  parse : Json → Except String Json := .ok

structure ArgumentDefinition where
  type : TypeRef
  /-- The value of an argument that is not given, as the resolver is to see it. -/
  default? : Option Json := none

/-- A field of an object or interface type. -/
structure FieldDefinition (ω σ : Type) where
  name : Name
  description : Option String := none
  arguments : OrderedMap ArgumentDefinition := []
  type : TypeRef
  /-- Without one the field is read from JSON data. -/
  resolver? : Option (Resolver ω σ) := none

structure ObjectType (ω σ : Type) where
  name : Name
  description : Option String := none
  interfaces : List Name := []
  fields : OrderedMap (FieldDefinition ω σ) := []
  /-- Tests whether a value is of this type. -/
  isTypeOf? : Option (ObjectValue ω → Bool) := none

structure InterfaceType (ω σ : Type) where
  name : Name
  description : Option String := none
  fields : OrderedMap (FieldDefinition ω σ) := []
  /-- Names the object type of a value. -/
  resolveType? : Option (ObjectValue ω → Option Name) := none

structure UnionType (ω : Type) where
  name : Name
  description : Option String := none
  members : List Name := []
  /-- Names the object type of a value. -/
  resolveType? : Option (ObjectValue ω → Option Name) := none

structure EnumType where
  name : Name
  description : Option String := none
  values : List Name := []

/-- A named type. -/
inductive TypeDefinition (ω σ : Type) where
  | scalar (type : ScalarType)
  | object (type : ObjectType ω σ)
  | interface (type : InterfaceType ω σ)
  | union (type : UnionType ω)
  | enum (type : EnumType)

/-! ## Adding parts -/

/-- Adds an argument, in the place of an earlier one with its name. -/
def FieldDefinition.addArgument {ω σ : Type} (field : FieldDefinition ω σ) (name : Name)
    (argument : ArgumentDefinition) : FieldDefinition ω σ :=
  { field with arguments := field.arguments.insert name argument }

/-- Adds an interface unless it is listed already. -/
def ObjectType.implement {ω σ : Type} (type : ObjectType ω σ) (interface : Name) : ObjectType ω σ :=
  { type with interfaces := insertNew type.interfaces interface }

/-- Adds a field, in the place of an earlier one with its name. -/
def ObjectType.addField {ω σ : Type} (type : ObjectType ω σ) (field : FieldDefinition ω σ) :
    ObjectType ω σ :=
  { type with fields := type.fields.insert field.name field }

/-- Adds a field, in the place of an earlier one with its name. -/
def InterfaceType.addField {ω σ : Type} (type : InterfaceType ω σ) (field : FieldDefinition ω σ) :
    InterfaceType ω σ :=
  { type with fields := type.fields.insert field.name field }

/-- Adds a member unless it is listed already. -/
def UnionType.addMember {ω : Type} (type : UnionType ω) (member : Name) : UnionType ω :=
  { type with members := insertNew type.members member }

/-- Adds a value unless it is listed already. -/
def EnumType.addValue (type : EnumType) (value : Name) : EnumType :=
  { type with values := insertNew type.values value }

/-! ## Named types -/

namespace TypeDefinition

variable {ω σ : Type}

def name : TypeDefinition ω σ → Name
  | .scalar t => t.name
  | .object t => t.name
  | .interface t => t.name
  | .union t => t.name
  | .enum t => t.name

/-- Whether arguments and variables can have the type. -/
def isInput : TypeDefinition ω σ → Bool
  | .scalar _ => true
  | .enum _ => true
  | .object _ => false
  | .interface _ => false
  | .union _ => false

/-- What a type is called in error messages. -/
def describe : TypeDefinition ω σ → String
  | .scalar _ => "a scalar type"
  | .object _ => "an object type"
  | .interface _ => "an interface type"
  | .union _ => "a union type"
  | .enum _ => "an enum type"

end TypeDefinition

/-! ## Schemas -/

/-- A schema whose resolvers share a state `σ` and return host objects `ω`. -/
structure Schema (ω σ : Type) where
  queryType : Name
  mutationType : Option Name
  /-- All types by name, built-in scalars first. -/
  types : OrderedMap (TypeDefinition ω σ)
  /-- For each interface and union, the object types that its values can have. -/
  possible : OrderedMap (List Name)

namespace Schema

variable {ω σ : Type}

def type? (schema : Schema ω σ) (name : Name) : Option (TypeDefinition ω σ) :=
  schema.types.get? name

def object? (schema : Schema ω σ) (name : Name) : Option (ObjectType ω σ) :=
  match schema.type? name with
  | some (.object t) => some t
  | _ => none

def interface? (schema : Schema ω σ) (name : Name) : Option (InterfaceType ω σ) :=
  match schema.type? name with
  | some (.interface t) => some t
  | _ => none

def union? (schema : Schema ω σ) (name : Name) : Option (UnionType ω) :=
  match schema.type? name with
  | some (.union t) => some t
  | _ => none

def enum? (schema : Schema ω σ) (name : Name) : Option EnumType :=
  match schema.type? name with
  | some (.enum t) => some t
  | _ => none

def scalar? (schema : Schema ω σ) (name : Name) : Option ScalarType :=
  match schema.type? name with
  | some (.scalar t) => some t
  | _ => none

/-- The field of an object or interface type. -/
def field? (schema : Schema ω σ) (typeName fieldName : Name) : Option (FieldDefinition ω σ) :=
  match schema.type? typeName with
  | some (.object t) => t.fields.get? fieldName
  | some (.interface t) => t.fields.get? fieldName
  | _ => none

/-- The object type that operations of a kind start from. -/
def root? (schema : Schema ω σ) : OperationKind → Option (ObjectType ω σ)
  | .query => schema.object? schema.queryType
  | .mutation => schema.mutationType.bind schema.object?
  | .subscription => none

/-- The object types that values of a type can have: those listed for an interface or union, and
an object type itself. -/
def possibleTypes (schema : Schema ω σ) (name : Name) : List Name :=
  (schema.possible.get? name).getD [] ++ (if (schema.object? name).isSome then [name] else [])

/-- Whether the second name is the first one, or a possible type of the abstract type that the
first one names. -/
def isSubtype (schema : Schema ω σ) (abstractType maybeSubtype : Name) : Bool :=
  abstractType == maybeSubtype ||
    ((schema.possible.get? abstractType).getD []).contains maybeSubtype

/-- Whether a fragment with a type condition applies to objects of a type.  A condition that names
no output type applies to nothing. -/
def fragmentApplies (schema : Schema ω σ) (objectType condition : Name) : Bool :=
  match schema.type? condition with
  | some (.object _) => condition == objectType
  | some (.interface _) => schema.isSubtype condition objectType
  | some (.union _) => schema.isSubtype condition objectType
  | some (.scalar _) => false
  | some (.enum _) => false
  | none => false

end Schema

end GraphQLEngine
