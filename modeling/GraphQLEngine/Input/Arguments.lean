/-
Arguments of a field.

Only the first of the fields merged under a response key counts, and of it
only the first occurrence of each declared argument.  A variable brings its
value as it was coerced for the operation; a null that it holds is a value,
and does not give way to the default.
-/
import GraphQLEngine.FieldFault
import GraphQLEngine.Input.Coercion

namespace GraphQLEngine

namespace Scope

variable {ω σ : Type}

/-- The value that a field gives to an argument, if any. -/
def givenValue (scope : Scope ω σ) (type : TypeRef) : Option Literal → Except InputError (Option Json)
  | none => .ok none
  | some (.variableRef name) => .ok (OrderedMap.get? scope.bindings name)
  | some l => (scope.schema.coerceInput type (l.toJson scope.bindings)).map some

/-- The value of a declared argument, after its default. -/
def argumentValue (scope : Scope ω σ) (name : Name) (definition : ArgumentDefinition)
    (given : Option Literal) : Except FieldFault (Option Json) :=
  match scope.givenValue definition.type given with
  | .error e => .error (.invalidArgument name e)
  | .ok value =>
    match value.or definition.default? with
    | none =>
      if definition.type.isNonNull then .error (.missingArgument name definition.type) else .ok none
    | some j =>
      if j.isNull && definition.type.isNonNull then
        .error (.invalidArgument name (.nullForNonNull definition.type))
      else .ok (some j)

/-- The arguments of a field in declaration order, or the fault of the first that fails. -/
def coerceArguments (scope : Scope ω σ) (field : Field) :
    OrderedMap ArgumentDefinition → Except FieldFault JsonObject
  | [] => .ok []
  | (name, definition) :: rest =>
    match scope.argumentValue name definition (argument? field.arguments name) with
    | .error fault => .error fault
    | .ok none => coerceArguments scope field rest
    | .ok (some j) => (coerceArguments scope field rest).map ((name, j) :: ·)

end Scope

end GraphQLEngine
