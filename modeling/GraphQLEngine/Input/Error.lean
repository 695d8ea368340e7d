/-
Reasons why a JSON value is no value of an input type.
-/
import GraphQLEngine.Json.Printer
import GraphQLEngine.TypeRef

namespace GraphQLEngine

/-- Why a value does not fit an input type. -/
inductive InputError where
  /-- A null where the type has none. -/
  | nullForNonNull (type : TypeRef)
  /-- The scalar refuses the value, with its own message. -/
  | refusedByScalar (message : String)
  | notInEnum (value : Json) (enum : Name)
  /-- The type is for output only. -/
  | notInputType (name : Name) (found : String)
  | undefinedType (name : Name)
deriving DecidableEq

def InputError.message : InputError → String
  | .nullForNonNull type => s!"null value for non-null type {type}"
  | .refusedByScalar message => message
  | .notInEnum value enum => value.text ++ " is not a value of enum " ++ enum
  | .notInputType name found => s!"{name} is {found}, not an input type"
  | .undefinedType name => s!"undefined type {name}"

end GraphQLEngine
