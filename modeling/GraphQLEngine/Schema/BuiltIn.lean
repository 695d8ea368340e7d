/-
The scalar types of every schema.

Each coerces results and inputs in the same way.  Integers are never made
from fractional numbers, even where nothing would be lost; a float accepts an
integer, and an identifier accepts an integer and shows it as text.
-/
import GraphQLEngine.Json.Printer
import GraphQLEngine.Schema.Basic

namespace GraphQLEngine

namespace BuiltIn

def coerceInt (value : Json) : Except String Json :=
  match value.asInt64? with
  | some n =>
    if IntRange.signed32 n then .ok value
    else .error ("Int cannot represent non 32-bit signed integer value: " ++ value.text)
  | none => .error ("Int cannot represent non-integer value: " ++ value.text)

def coerceFloat (value : Json) : Except String Json :=
  match value with
  | .float _ => .ok value
  | .int n => .ok (.float (Double.ofInt n))
  | _ => .error ("Float cannot represent non numeric value: " ++ value.text)

def coerceString (value : Json) : Except String Json :=
  match value with
  | .str _ => .ok value
  | _ => .error ("String cannot represent a non string value: " ++ value.text)

def coerceBoolean (value : Json) : Except String Json :=
  match value with
  | .bool _ => .ok value
  | _ => .error ("Boolean cannot represent a non boolean value: " ++ value.text)

def coerceIdentifier (value : Json) : Except String Json :=
  match value with
  | .str _ => .ok value
  | _ =>
    match value.asInt64? with
    | some n => .ok (.str (toString n))
    | none => .error ("ID cannot represent value: " ++ value.text)

/-- A scalar type with one coercion for results and inputs. -/
def scalar (name : Name) (description : String) (coerce : Json → Except String Json) : ScalarType where
  name := name
  description := some description
  serialize := coerce
  parse := coerce

def scalars : List ScalarType :=
  [scalar "Int" "The `Int` scalar type represents non-fractional signed whole numeric values." coerceInt,
    scalar "Float" "The `Float` scalar type represents signed double-precision fractional values." coerceFloat,
    scalar "String" "The `String` scalar type represents textual data." coerceString,
    scalar "Boolean" "The `Boolean` scalar type represents `true` or `false`." coerceBoolean,
    scalar "ID" "The `ID` scalar type represents a unique identifier." coerceIdentifier]

end BuiltIn

end GraphQLEngine
