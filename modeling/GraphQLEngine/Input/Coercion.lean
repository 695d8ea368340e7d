/-
Input coercion: JSON values as values of an input type.

Input types are scalars, enumerations and lists of them.  A value that is no
list stands for a list of one.  A scalar decides with its own function; null
never reaches it.
-/
import GraphQLEngine.Input.Error
import GraphQLEngine.Schema.BuiltIn

namespace GraphQLEngine

/-- Whether a value is the name of a member. -/
def EnumType.has (type : EnumType) (value : Json) : Bool :=
  match value with
  | .str s => type.values.contains s
  | _ => false

namespace Schema

variable {ω σ : Type}

/-- A value other than null as a value of a named type. -/
def coerceNamedInput (schema : Schema ω σ) (name : Name) (value : Json) : Except InputError Json :=
  match schema.type? name with
  | some (.scalar t) =>
    match t.parse value with
    | .ok j => .ok j
    | .error message => .error (.refusedByScalar message)
  | some (.enum t) => if t.has value then .ok value else .error (.notInEnum value name)
  | some other => .error (.notInputType name other.describe)
  | none => .error (.undefinedType name)

/-- Coerces each item of a list, up to the first that fails. -/
def coerceItems (coerce : Json → Except InputError Json) : List Json → Except InputError (List Json)
  | [] => .ok []
  | j :: rest =>
    match coerce j with
    | .error e => .error e
    | .ok k =>
      match coerceItems coerce rest with
      | .error e => .error e
      | .ok ks => .ok (k :: ks)

/-- The items that a value stands for where a list is expected. -/
def itemsOf (value : Json) : List Json :=
  match value with
  | .arr items => items
  | _ => [value]

/-- Coerces a value to a type. -/
def coerceInput (schema : Schema ω σ) (type : TypeRef) (value : Json) : Except InputError Json :=
  if value.isNull then
    if type.isNonNull then .error (.nullForNonNull type) else .ok .null
  else
    match type with
    | .named name => schema.coerceNamedInput name value
    | .nonNullNamed name => schema.coerceNamedInput name value
    | .list item => (coerceItems (coerceInput schema item) (itemsOf value)).map .arr
    | .nonNullList item => (coerceItems (coerceInput schema item) (itemsOf value)).map .arr

end Schema

mutual

/-- The JSON value of a literal; a variable without a value counts as null. -/
def Literal.toJson (bindings : JsonObject) : Literal → Json
  | .null => .null
  | .enumValue name => .str name
  | .variableRef name => (OrderedMap.get? bindings name).getD .null
  | .string value => .str value
  | .float value => .ofDouble value
  | .int value => .int value
  | .boolean value => .bool value
  | .list items => .arr (Literal.itemsToJson bindings items)
  | .object fields => .obj (OrderedMap.ofList (Literal.fieldsToJson bindings fields))

def Literal.itemsToJson (bindings : JsonObject) : List Literal → List Json
  | [] => []
  | l :: rest => l.toJson bindings :: Literal.itemsToJson bindings rest

def Literal.fieldsToJson (bindings : JsonObject) : List (Name × Literal) → List (String × Json)
  | [] => []
  | (key, l) :: rest => (key, l.toJson bindings) :: Literal.fieldsToJson bindings rest

end

end GraphQLEngine
