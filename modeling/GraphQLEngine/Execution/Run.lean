/-
Running requests.

A request is prepared first: its operation is chosen and its variables are
coerced, or it is refused.  What is left is work in rounds.  The fields of a
query are at work together, those of a mutation one after the other.  A run
that does not finish within the rounds of its request is cut off; it then has
no response.
-/
import GraphQLEngine.Execution.Round
import GraphQLEngine.Input.Variables
import GraphQLEngine.Request.Basic

namespace GraphQLEngine

/-! ## Levels -/

/-- How many lists a type nests. -/
def TypeRef.listDepth : TypeRef → Nat
  | .named _ => 0
  | .nonNullNamed _ => 0
  | .list item => item.listDepth + 1
  | .nonNullList item => item.listDepth + 1

/-- How many lists the types of fields nest at most. -/
def Schema.listDepth {ω σ : Type} (schema : Schema ω σ) : Nat :=
  schema.types.foldr (fun t deepest =>
    match t.2 with
    | .object o => o.fields.foldr (fun f deepest => max f.2.type.listDepth deepest) deepest
    | _ => deepest) 0

/-- How many levels a task tree can have whose selection sets nest to the given depth.  A selection
set opens one level, the lists of its field before it one level each, and the leaves are the last. -/
def Schema.levels {ω σ : Type} (schema : Schema ω σ) (depth : Nat) : Nat :=
  (depth + 2) * (schema.listDepth + 1)

/-! ## Preparation -/

/-- A request that was not refused. -/
structure Prepared (ω σ : Type) where
  scope : Scope ω σ
  /-- The work on the operation, before any of it is done. -/
  start : Work ω σ
  /-- How many levels of the task tree are worked on. -/
  levels : Nat

/-- The work on the fields of an operation. -/
def Scope.operationWork {ω σ : Type} (scope : Scope ω σ) (kind : OperationKind) (site : Site ω σ)
    (selections : List Selection) : Work ω σ :=
  match kind with
  | .mutation => .mutation site (scope.fieldChildren site selections)
  | _ => .query (scope.objectTask site selections)

/-- Chooses the operation, finds its root type and coerces its variables. -/
def Schema.prepare {ω σ : Type} (schema : Schema ω σ) (request : Request ω) :
    Except RequestError (Prepared ω σ) := do
  let operation ← request.document.selectOperation request.operationName
  if operation.kind = .subscription then throw .subscription
  match schema.root? operation.kind with
  | none => throw (.undefinedRoot operation.kind)
  | some root => do
    let bindings ← schema.coerceVariables operation request.variableValues
    let scope : Scope ω σ :=
      { schema, fragments := request.document.fragments, bindings, width := request.width }
    return {
      scope
      start := scope.operationWork operation.kind ⟨root, request.root, []⟩ operation.selections
      levels := schema.levels request.depth }

/-! ## Runs -/

/-- The response that the outcome of an operation amounts to. -/
def Outcome.toResponse (o : Outcome) : Response where
  errors := o.errors
  data := o.value.bind Json.asObject?

/-- How a run ends. -/
inductive Ending where
  | refused (reason : RequestError)
  | responded (response : Response)
  /-- It was cut off before it was finished. -/
  | cancelled
deriving DecidableEq

/-- A run: how it ended, the work as it was left, the last state, and the events of each round. -/
structure Run (ω σ : Type) where
  ending : Ending
  /-- None if no work was ever begun. -/
  work : Option (Work ω σ)
  state : σ
  rounds : List (List (Event ω))

namespace Run

variable {ω σ : Type}

/-- All events in order. -/
def events (run : Run ω σ) : List (Event ω) :=
  run.rounds.flatten

/-- The same run after an earlier round. -/
def precededBy (run : Run ω σ) (events : List (Event ω)) : Run ω σ :=
  { run with rounds := events :: run.rounds }

end Run

namespace Prepared

variable {ω σ : Type}

/-- Works for at most `limit` rounds on an operation that is not finished, or has not begun. -/
def runOn (prepared : Prepared ω σ) : Nat → Work ω σ → σ → Run ω σ
  | 0, work, state => ⟨.cancelled, some work, state, []⟩
  | limit + 1, work, state =>
    let (work, state, events) := (prepared.scope.workRound prepared.levels work).run state
    match work.outcome? with
    | some o => ⟨.responded o.toResponse, some work, state, [events]⟩
    | none => (prepared.runOn limit work state).precededBy events

end Prepared

/-- Executes a request.  A refusal takes a round too, without events. -/
def Schema.execute {ω σ : Type} (schema : Schema ω σ) (request : Request ω) (state : σ) : Run ω σ :=
  match request.rounds, schema.prepare request with
  | 0, _ => ⟨.cancelled, none, state, []⟩
  | _ + 1, .error reason => ⟨.refused reason, none, state, [[]]⟩
  | limit + 1, .ok prepared => prepared.runOn (limit + 1) prepared.start state

end GraphQLEngine
