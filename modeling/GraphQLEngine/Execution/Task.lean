/-
The tree of work that a response is made of.

Every node stands at a position of the response.  A node is settled, or has
not begun, or waits for a resolver, or has branched into the fields of an
object or the items of a list.  Execution makes the tree grow, except that
fields which will never begin are dropped.  The data and the errors of the
response are read off the finished tree, in its order, so that they cannot
depend on when its parts were finished.
-/
import GraphQLEngine.Schema.Basic
import GraphQLEngine.Selection.Collection

namespace GraphQLEngine

/-- An object whose fields are executed, at its place in the response. -/
structure Site (ω σ : Type) where
  objectType : ObjectType ω σ
  value : ObjectValue ω
  path : Path

/-- Work that has not begun. -/
inductive Job (ω σ : Type) where
  /-- A field of an object: its arguments are to be coerced and its resolver to be called. -/
  | field (site : Site ω σ) (group : FieldGroup) (definition : FieldDefinition ω σ)
  /-- An item of a list, as the resolver of the list's field returned it. -/
  | item (group : FieldGroup) (type : TypeRef) (path : Path)
      (resolved : Except ResolverFailure (Resolved ω))

/-- A resolver call that is suspended, with what its answer will be measured against. -/
structure Call (ω σ : Type) where
  info : ResolveInfo ω
  resolver : Resolver ω σ
  type : TypeRef
  group : FieldGroup

/-- A field of an object, or an item of a list, with its declared type. -/
structure Position where
  segment : PathSegment
  type : TypeRef
deriving DecidableEq

/-- What the children of a node make up. -/
inductive Shape (ω σ : Type) where
  /-- The fields of an object. -/
  | object (site : Site ω σ)
  /-- The items of a list. -/
  | list

/-- Which of the children of a node are worked on in a round. -/
inductive Turns where
  /-- All that are unfinished, in their order. -/
  | together
  /-- Those whose turn it is.  The queue holds the indices of the unfinished children. -/
  | queued (queue : List Nat)
deriving DecidableEq

mutual

/-- The state of the work at one position of a response. -/
inductive Task (ω σ : Type) where
  /-- A value with nothing below it. -/
  | value (json : Json)
  /-- An error at this position. -/
  | failed (error : ResponseError)
  | unstarted (job : Job ω σ)
  /-- A resolver that stays suspended for so many more rounds. -/
  | waiting (rounds : Nat) (call : Call ω σ)
  | branch (shape : Shape ω σ) (turns : Turns) (children : List (Child ω σ))

/-- A node below another one. -/
inductive Child (ω σ : Type) where
  | mk (position : Position) (task : Task ω σ)
  /-- A selected field that the object type lacks.  It has no place in the response. -/
  | absent (key : Name)

end

/-- The work on an operation. -/
inductive Work (ω σ : Type) where
  /-- The fields of a query are a task like any other. -/
  | query (task : Task ω σ)
  /-- The fields of a mutation are worked on one after the other. -/
  | mutation (site : Site ω σ) (fields : List (Child ω σ))

/-! ## Outcomes -/

/-- What the finished work at a position comes to. -/
structure Outcome where
  /-- The value, or nothing where a null has to go on to the parent. -/
  value : Option Json
  /-- The errors at this position and below, in the order of the response. -/
  errors : List ResponseError
deriving DecidableEq

/-- Lets a null stay where the declared type admits it. -/
def Outcome.settle (type : TypeRef) (o : Outcome) : Outcome :=
  match o.value with
  | some _ => o
  | none => if type.isNonNull then o else { o with value := some .null }

/-- The values of all outcomes, if every one has a value. -/
def allValues : List (PathSegment × Outcome) → Option (List (PathSegment × Json))
  | [] => some []
  | (s, o) :: rest => do
    let j ← o.value
    let js ← allValues rest
    some ((s, j) :: js)

/-- The JSON value that the values of children make up. -/
def Shape.assemble {ω σ : Type} (shape : Shape ω σ) (values : List (PathSegment × Json)) : Json :=
  match shape with
  | .object _ => .obj (values.map (fun v => (v.1.text, v.2)))
  | .list => .arr (values.map Prod.snd)

/-- The outcome of a node whose children are finished. -/
def Shape.join {ω σ : Type} (shape : Shape ω σ) (outcomes : List (PathSegment × Outcome)) : Outcome where
  value := (allValues outcomes).map shape.assemble
  errors := outcomes.flatMap (fun o => o.2.errors)

mutual

/-- The outcome of a node, if all work below it is finished. -/
def Task.outcome? {ω σ : Type} : Task ω σ → Option Outcome
  | .value json => some ⟨some json, []⟩
  | .failed error => some ⟨none, [error]⟩
  | .unstarted _ => none
  | .waiting _ _ => none
  | .branch shape _ children => (Child.outcomes? children).map shape.join

/-- The outcomes of the children that have a place in the response, if all are finished.  Each
position has the chance to take up a null. -/
def Child.outcomes? {ω σ : Type} : List (Child ω σ) → Option (List (PathSegment × Outcome))
  | [] => some []
  | .absent _ :: rest => Child.outcomes? rest
  | .mk position task :: rest =>
    match task.outcome?, Child.outcomes? rest with
    | some o, some os => some ((position.segment, o.settle position.type) :: os)
    | _, _ => none

end

theorem Child.outcomes?_mk_cons {ω σ : Type} {position : Position} {task : Task ω σ}
    {rest : List (Child ω σ)} {os : List (PathSegment × Outcome)} :
    Child.outcomes? (.mk position task :: rest) = some os ↔
      ∃ o os', task.outcome? = some o ∧ Child.outcomes? rest = some os' ∧
        os = (position.segment, o.settle position.type) :: os' := by
  rw [Child.outcomes?]
  match task.outcome?, Child.outcomes? rest with
  | some o, some os' => simp [eq_comm]
  | none, _ => simp
  | some _, none => simp

/-- The outcome of an operation, if all work is finished. -/
def Work.outcome? {ω σ : Type} : Work ω σ → Option Outcome
  | .query task => task.outcome?
  | .mutation site fields => (Child.outcomes? fields).map (Shape.object site).join

/-- Whether nothing is left to do at a child. -/
def Child.isFinished {ω σ : Type} : Child ω σ → Bool
  | .mk _ task => task.outcome?.isSome
  | .absent _ => true

/-- Whether a null goes on from a finished child to its parent. -/
def Child.passesNull {ω σ : Type} : Child ω σ → Bool
  | .mk position task =>
    match task.outcome? with
    | some o => (o.settle position.type).value.isNone
    | none => false
  | .absent _ => false

end GraphQLEngine
