/-
Resolvers and what they exchange with the engine.

A resolver is a pure function of what the engine tells it and of a state
that the resolvers of an execution share.  It may ask to be suspended for a
number of rounds first.  Objects that it returns are JSON data or values of
a host type `ω`, of which the engine knows nothing.
-/
import GraphQLEngine.Response.Basic

namespace GraphQLEngine

/-- A value of some object type: JSON data, or a value of the host. -/
inductive ObjectValue (ω : Type) where
  | json (entries : JsonObject)
  | host (value : ω)
deriving Inhabited

namespace ObjectValue

/-- The data of an object that came from JSON. -/
def asJson? {ω : Type} : ObjectValue ω → Option JsonObject
  | .json entries => some entries
  | .host _ => none

end ObjectValue

/-- What a resolver is told about the field that it resolves. -/
structure ResolveInfo (ω : Type) where
  parent : ObjectValue ω
  /-- Coerced arguments in declaration order; one without value and default is absent. -/
  arguments : JsonObject
  fieldName : Name
  parentType : Name
  path : Path

/-- Why a resolver, or one item of its list, has no value. -/
structure ResolverFailure where
  message : String
  extensions : JsonObject := []
deriving DecidableEq, Inhabited

/-- What a resolver returns.

A leaf may be an object or a list in JSON where the field's type is one. -/
inductive Resolved (ω : Type) where
  | leaf (value : Json)
  | object (value : ObjectValue ω)
  | list (items : List (Except ResolverFailure (Resolved ω)))
deriving Inhabited

/-- A resolver over the shared state `σ`.

How long it is suspended is a number of its own, the same for every call, and it touches the state
once, when it answers.  So two kinds of resolvers are left out: those that touch the state before
they wait and again after it, such as one that logs its start and its end, and those whose delay
depends on what they are told or on the state, such as one that waits until another has come as far.
-/
structure Resolver (ω σ : Type) where
  /-- How many rounds it is suspended; without a number it answers when it is called. -/
  suspension : Option Nat
  answer : ResolveInfo ω → σ → Except ResolverFailure (Resolved ω) × σ

/-- The failure of a field without a resolver whose parent is not JSON data. -/
def ResolverFailure.noResolver (parentType fieldName : Name) : ResolverFailure :=
  { message := s!"no resolver for field {parentType}.{fieldName} and the parent value is not a JSON object" }

/-- The value of a field without a resolver: the entry of its name in JSON data, null if missing. -/
def ResolveInfo.defaultAnswer {ω : Type} (info : ResolveInfo ω) :
    Except ResolverFailure (Resolved ω) :=
  match info.parent.asJson? with
  | some entries => .ok (.leaf ((OrderedMap.get? entries info.fieldName).getD .null))
  | none => .error (.noResolver info.parentType info.fieldName)

end GraphQLEngine
