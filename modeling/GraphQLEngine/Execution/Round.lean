/-
One round of work on a task tree, or on an operation.

In a round every node is offered one step.  A node that has not begun
begins; a suspended resolver comes one round closer to its answer, or gives
it; and what branches in this way goes on with its children in the same
round.  How many children of a branch have a step depends on its turns.

A branch whose children take turns keeps the unfinished ones in a queue.
It offers steps from the front, and a child that is still unfinished goes to
the back.  The branch stops when two children in succession are left
unfinished, or the only child that is left.  So a child may have several
steps in a round, while others have none.
-/
import GraphQLEngine.Execution.Completion

namespace GraphQLEngine

variable {ω σ : Type}

/-- A step of a child, given the step of a task. -/
def Child.step (step : Task ω σ → Action ω σ (Task ω σ)) : Child ω σ → Action ω σ (Child ω σ)
  | .mk position task => do
    let task ← step task
    return .mk position task
  | .absent key => return .absent key

/-- Steps of children one after the other, up to the first that does not finish.  After a child that
passes a null on, the later ones are dropped. -/
def Child.stepSerial (step : Task ω σ → Action ω σ (Task ω σ)) :
    List (Child ω σ) → Action ω σ (List (Child ω σ))
  | [] => return []
  | child :: later => do
    let child ← child.step step
    if !child.isFinished then return child :: later
    else if child.passesNull then return [child]
    else do
      let later ← stepSerial step later
      return child :: later

namespace Turns

/-- Steps of the children in the queue, until the branch stops.  `waited` says that the child before
was left unfinished.  At most two steps are taken for each child in the queue at the start, which
`fuel` bounds. -/
def stepQueued (step : Task ω σ → Action ω σ (Task ω σ)) :
    Nat → Bool → List Nat → List (Child ω σ) → Action ω σ (List Nat × List (Child ω σ))
  | 0, _, queue, children => return (queue, children)
  | _ + 1, _, [], children => return ([], children)
  | fuel + 1, waited, i :: queue, children =>
    match children[i]? with
    | none => stepQueued step fuel waited queue children
    | some child => do
      let child ← child.step step
      let children := children.set i child
      if child.isFinished then stepQueued step fuel false queue children
      else if waited || queue.isEmpty then return (queue ++ [i], children)
      else stepQueued step fuel true (queue ++ [i]) children

/-- Steps of the children of a branch. -/
def step (step : Task ω σ → Action ω σ (Task ω σ)) (turns : Turns) (children : List (Child ω σ)) :
    Action ω σ (Turns × List (Child ω σ)) :=
  match turns with
  | .together => do
    let children ← Action.forEach (Child.step step) children
    return (.together, children)
  | .queued queue => do
    let (queue, children) ← stepQueued step (2 * queue.length) false queue children
    return (.queued queue, children)

end Turns

namespace Scope

/-- Goes on with the children of a node, if it has any.  The step of a child is given. -/
def stepChildren (step : Task ω σ → Action ω σ (Task ω σ)) : Task ω σ → Action ω σ (Task ω σ)
  | .branch shape turns children => do
    let (turns, children) ← turns.step step children
    return .branch shape turns children
  | task => return task

/-- A step of a node.  The step of a child is given. -/
def stepWith (scope : Scope ω σ) (step : Task ω σ → Action ω σ (Task ω σ)) :
    Task ω σ → Action ω σ (Task ω σ)
  | .value json => return .value json
  | .failed error => return .failed error
  | .unstarted job => do
    let task ← scope.begin job
    stepChildren step task
  | .waiting 0 call => do
    let task ← scope.resume call
    stepChildren step task
  | .waiting (rounds + 1) call => return .waiting rounds call
  | .branch shape turns children => stepChildren step (.branch shape turns children)

/-- A round of work on a tree, down to the given number of levels.  Nodes below stay as they are. -/
def round (scope : Scope ω σ) : Nat → Task ω σ → Action ω σ (Task ω σ)
  | 0 => fun task => return task
  | levels + 1 => scope.stepWith (scope.round levels)

/-- A round of work on an operation, down to the given number of levels below its own fields. -/
def workRound (scope : Scope ω σ) (levels : Nat) : Work ω σ → Action ω σ (Work ω σ)
  | .query task => do
    let task ← scope.round (levels + 1) task
    return .query task
  | .mutation site fields => do
    let fields ← Child.stepSerial (scope.round levels) fields
    return .mutation site fields

end Scope

end GraphQLEngine
