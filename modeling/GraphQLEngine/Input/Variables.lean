/-
Values of variables.

A variable takes the value that the request provides under its name, else
its default.  One with neither is left unbound, whatever its type: that only
matters to the arguments that use it.
-/
import GraphQLEngine.Input.Coercion

namespace GraphQLEngine

namespace Schema

variable {ω σ : Type}

/-- The value of a variable before coercion. -/
def variableInput? (provided : JsonObject) (definition : VariableDefinition) : Option Json :=
  match OrderedMap.get? provided definition.name with
  | some value => some value
  | none => definition.default?.map (Literal.toJson [])

/-- Binds variables in declaration order, added to those bound already. -/
def bindVariables (schema : Schema ω σ) (provided : JsonObject) :
    List VariableDefinition → JsonObject → Except RequestError JsonObject
  | [], bound => .ok bound
  | d :: rest, bound =>
    match variableInput? provided d with
    | none => bindVariables schema provided rest bound
    | some value =>
      match schema.coerceInput d.type value with
      | .ok coerced => bindVariables schema provided rest (OrderedMap.insert bound d.name coerced)
      | .error e => .error (.invalidVariable d.name e d.location)

/-- The values of an operation's variables, or the first that does not fit its type. -/
def coerceVariables (schema : Schema ω σ) (operation : Operation) (provided : JsonObject) :
    Except RequestError JsonObject :=
  schema.bindVariables provided operation.variableDefinitions []

end Schema

end GraphQLEngine
