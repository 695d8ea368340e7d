/-
The object type of a value whose declared type is an interface or a union.

Three sources are asked in turn: the type resolver of the abstract type; the
tests of its possible types, of which exactly one must accept the value; and
the entry `__typename` of JSON data.  A source that answers is final, so a
wrong answer is an error and not a reason to ask the next one.
-/
import GraphQLEngine.FieldFault

namespace GraphQLEngine

namespace Schema

variable {ω σ : Type}

/-- The possible types whose tests accept a value. -/
def matching (schema : Schema ω σ) (abstractType : Name) (value : ObjectValue ω) :
    List (ObjectType ω σ) :=
  ((schema.possibleTypes abstractType).filterMap schema.object?).filter
    (fun t => (t.isTypeOf?.map (fun test => test value)) == some true)

/-- The type that JSON data says it has. -/
def typenameOf? (value : ObjectValue ω) : Option Name := do
  let entries ← value.asJson?
  (← OrderedMap.get? entries "__typename").asString?

/-- The possible type of a name. -/
def possibleObject (schema : Schema ω σ) (abstractType name : Name) :
    Except TypeResolutionError (ObjectType ω σ) :=
  if !schema.isSubtype abstractType name || name == abstractType then
    .error (.notPossible name abstractType)
  else
    match schema.object? name with
    | some t => .ok t
    | none => .error (.notObject name)

/-- The object type of a value of an abstract type. -/
def resolveAbstract (schema : Schema ω σ) (abstractType : Name)
    (resolveType? : Option (ObjectValue ω → Option Name)) (value : ObjectValue ω) :
    Except TypeResolutionError (ObjectType ω σ) :=
  match resolveType? with
  | some resolveType =>
    match resolveType value with
    | some name => schema.possibleObject abstractType name
    | none => .error .noTypeNamed
  | none =>
    match schema.matching abstractType value with
    | [t] => .ok t
    | first :: second :: _ => .error (.severalMatch first.name second.name)
    | [] =>
      match typenameOf? value with
      | some name => schema.possibleObject abstractType name
      | none => .error .noneMatches

/-- The object type of a value of a named type. -/
def objectTypeOf (schema : Schema ω σ) (name : Name) (value : ObjectValue ω) :
    Except FieldFault (ObjectType ω σ) :=
  match schema.type? name with
  | some (.object t) =>
    if (t.isTypeOf?.map (fun test => test value)) == some false then
      .error (.unexpectedValue .objectOfOtherType (.objectOf name))
    else .ok t
  | some (.interface t) =>
    (schema.resolveAbstract name t.resolveType? value).mapError (.ambiguousType name)
  | some (.union t) =>
    (schema.resolveAbstract name t.resolveType? value).mapError (.ambiguousType name)
  | some (.scalar _) => .error (.unexpectedValue .object (.leafOf name))
  | some (.enum _) => .error (.unexpectedValue .object (.leafOf name))
  | none => .error (.unexpectedValue .object (.leafOf name))

end Schema

end GraphQLEngine
