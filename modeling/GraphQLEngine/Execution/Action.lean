/-
Actions: computations over the shared state that call resolvers.

An action takes the state and gives a result, the new state, and the events
that an observer of the resolvers would see, in their order.  That events
never depend on earlier ones holds by the type.
-/
import GraphQLEngine.Resolver

namespace GraphQLEngine

/-- What happens to a resolver. -/
inductive Phase where
  /-- It is called and answers at once. -/
  | called
  /-- It is called and will answer later, or at once after no delay. -/
  | started
  /-- It answers after its suspension. -/
  | ended
deriving DecidableEq

/-- An event in the life of a resolver call. -/
structure Event (ω : Type) where
  phase : Phase
  info : ResolveInfo ω
  /-- What the resolver answered, where it did. -/
  answer? : Option (Except ResolverFailure (Resolved ω)) := none

/-- A computation over the state `σ` that reports events. -/
def Action (ω σ α : Type) : Type :=
  σ → α × σ × List (Event ω)

namespace Action

variable {ω σ α β : Type}

def run (action : Action ω σ α) (state : σ) : α × σ × List (Event ω) :=
  action state

def pure (a : α) : Action ω σ α :=
  fun state => (a, state, [])

def bind (action : Action ω σ α) (next : α → Action ω σ β) : Action ω σ β :=
  fun state =>
    let (a, state, before) := action state
    let (b, state, after) := next a state
    (b, state, before ++ after)

instance : Monad (Action ω σ) where
  pure := pure
  bind := bind

/-- Reports an event without an answer. -/
def report (phase : Phase) (info : ResolveInfo ω) : Action ω σ Unit :=
  fun state => ((), state, [{ phase, info }])

/-- Lets a resolver answer, and reports what it answered. -/
def ask (phase : Phase) (resolver : Resolver ω σ) (info : ResolveInfo ω) :
    Action ω σ (Except ResolverFailure (Resolved ω)) :=
  fun state =>
    let (answer, state) := resolver.answer info state
    (answer, state, [{ phase, info, answer? := some answer }])

/-- Performs an action for each member of a list, in order. -/
def forEach (f : α → Action ω σ β) : List α → Action ω σ (List β)
  | [] => pure []
  | a :: rest => do
    let b ← f a
    let bs ← forEach f rest
    return b :: bs

end Action

end GraphQLEngine
