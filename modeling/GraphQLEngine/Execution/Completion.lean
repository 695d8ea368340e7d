/-
Beginning the work at a position, and completing values.

A field begins with its arguments and the call of its resolver.  Completion
measures what the resolver returned against the declared type and yields a
fault or a node of the task tree: a settled one, or a branch whose children
have not begun.  Nothing here works on children; that is left to a round
(Execution/Round).
-/
import GraphQLEngine.Execution.Action
import GraphQLEngine.Execution.Task
import GraphQLEngine.Input.Arguments
import GraphQLEngine.Schema.Resolution

namespace GraphQLEngine

variable {ω σ : Type}

/-! ## Leaves -/

/-- The result of a scalar for a resolved value. -/
def ScalarType.complete (t : ScalarType) (value : Json) : Except LeafError Json :=
  (t.serialize value).mapError .refusedByScalar

/-- The result of an enumeration for a resolved value. -/
def EnumType.complete (t : EnumType) (name : Name) (value : Json) : Except LeafError Json :=
  if t.has value then .ok value else .error (.notInEnum name value)

/-- The result of a leaf type for a resolved value. -/
def Schema.completeLeaf (schema : Schema ω σ) (name : Name) (value : Json) : Except LeafError Json :=
  match schema.type? name with
  | some (.scalar t) => t.complete value
  | some (.enum t) => t.complete name value
  | _ => .error (.notLeaf name)

/-- The node of a value without anything below it, which may be null only if the type admits it. -/
def leafTask (type : TypeRef) (value : Json) : Except FieldFault (Task ω σ) :=
  if value.isNull && type.isNonNull then .error (.nonNullViolation type) else .ok (.value value)

/-- The node of a leaf's result. -/
def leafResult (type : TypeRef) : Except LeafError Json → Except FieldFault (Task ω σ)
  | .ok value => leafTask type value
  | .error reason => .error (.leafCoercion reason)

/-! ## Faults -/

/-- The node of a fault at a position. -/
def FieldFault.toTask (fault : FieldFault) (path : Path) (group : FieldGroup) : Task ω σ :=
  .failed (fault.toError path group)

/-- The node that completion leaves at a position. -/
def completedTask (path : Path) (group : FieldGroup) : Except FieldFault (Task ω σ) → Task ω σ
  | .ok task => task
  | .error fault => fault.toTask path group

namespace Site

/-- The place of a field of an object. -/
def fieldPath (site : Site ω σ) (group : FieldGroup) : Path :=
  site.path ++ [.key group.key]

/-- What the resolver of a field is told. -/
def info (site : Site ω σ) (group : FieldGroup) (arguments : JsonObject) : ResolveInfo ω where
  parent := site.value
  arguments := arguments
  fieldName := group.first.name
  parentType := site.objectType.name
  path := site.fieldPath group

end Site

namespace Scope

/-! ## Branches -/

/-- How a node with so many children works on them: all together up to the width of the scope. -/
def turns (scope : Scope ω σ) (count : Nat) : Turns :=
  match scope.width with
  | none => .together
  | some width => if count ≤ width then .together else .queued (List.range count)

/-- The child for the fields of a group. -/
def fieldChild (site : Site ω σ) (group : FieldGroup) : Child ω σ :=
  if group.first.name = "__typename" then
    .mk ⟨.key group.key, .nonNullNamed "String"⟩ (.value (.str site.objectType.name))
  else
    match site.objectType.fields.get? group.first.name with
    | none => .absent group.key
    | some definition => .mk ⟨.key group.key, definition.type⟩ (.unstarted (.field site group definition))

/-- The children for a selection set on an object. -/
def fieldChildren (scope : Scope ω σ) (site : Site ω σ) (selections : List Selection) :
    List (Child ω σ) :=
  (scope.collect site.objectType.name selections).map (fieldChild site)

/-- The branch of a selection set on an object. -/
def objectTask (scope : Scope ω σ) (site : Site ω σ) (selections : List Selection) : Task ω σ :=
  let children := scope.fieldChildren site selections
  .branch (.object site) (scope.turns children.length) children

/-- The children for the items of a list, from an index on. -/
def itemChildren (group : FieldGroup) (item : TypeRef) (path : Path) :
    Nat → List (Except ResolverFailure (Resolved ω)) → List (Child ω σ)
  | _, [] => []
  | i, resolved :: rest =>
    .mk ⟨.index i, item⟩ (.unstarted (.item group item (path ++ [.index i]) resolved))
      :: itemChildren group item path (i + 1) rest

/-- The branch of a list. -/
def listTask (scope : Scope ω σ) (group : FieldGroup) (item : TypeRef) (path : Path)
    (items : List (Except ResolverFailure (Resolved ω))) : Task ω σ :=
  .branch .list (scope.turns items.length) (itemChildren group item path 0 items)

/-! ## Completion -/

/-- Completes an object where a named type is declared. -/
def completeObject (scope : Scope ω σ) (group : FieldGroup) (name : Name) (path : Path)
    (value : ObjectValue ω) : Except FieldFault (Task ω σ) :=
  match scope.schema.objectTypeOf name value with
  | .ok objectType => .ok (scope.objectTask ⟨objectType, value, path⟩ group.selections)
  | .error fault => .error fault

/-- Completes a JSON value other than null where a named type is declared. -/
def completeLeaf (scope : Scope ω σ) (group : FieldGroup) (type : TypeRef) (name : Name)
    (path : Path) (value : Json) : Except FieldFault (Task ω σ) :=
  match scope.schema.type? name with
  | some (.scalar _) => leafResult type (scope.schema.completeLeaf name value)
  | some (.enum _) => leafResult type (scope.schema.completeLeaf name value)
  | some _ =>
    match value with
    | .obj entries => scope.completeObject group name path (.json entries)
    | _ => .error (.unexpectedValue (.json value) (.objectOf name))
  | none => .error (.unexpectedValue (.json value) (.undefinedType name))

/-- Completes a value where a named type is declared. -/
def completeNamed (scope : Scope ω σ) (group : FieldGroup) (type : TypeRef) (name : Name)
    (path : Path) : Resolved ω → Except FieldFault (Task ω σ)
  | .list _ => .error (.unexpectedValue .list (.nonListType type))
  | .object value => scope.completeObject group name path value
  | .leaf value =>
    if value.isNull then leafTask type .null else scope.completeLeaf group type name path value

/-- Completes a value where a list type is declared. -/
def completeList (scope : Scope ω σ) (group : FieldGroup) (type item : TypeRef) (path : Path) :
    Resolved ω → Except FieldFault (Task ω σ)
  | .list items => .ok (scope.listTask group item path items)
  | .leaf (.arr items) => .ok (scope.listTask group item path (items.map (fun j => .ok (.leaf j))))
  | .leaf value =>
    if value.isNull then leafTask type .null else .error (.invalidList type (.json value))
  | .object _ => .error (.invalidList type .object)

/-- Completes a value. -/
def complete (scope : Scope ω σ) (group : FieldGroup) (type : TypeRef) (path : Path)
    (resolved : Resolved ω) : Except FieldFault (Task ω σ) :=
  match type with
  | .named name => scope.completeNamed group type name path resolved
  | .nonNullNamed name => scope.completeNamed group type name path resolved
  | .list item => scope.completeList group type item path resolved
  | .nonNullList item => scope.completeList group type item path resolved

/-- Completes the answer of a resolver, or an item of such an answer. -/
def completeAnswer (scope : Scope ω σ) (group : FieldGroup) (type : TypeRef) (path : Path) :
    Except ResolverFailure (Resolved ω) → Task ω σ
  | .ok resolved => completedTask path group (scope.complete group type path resolved)
  | .error failure => (FieldFault.resolverFailure failure).toTask path group

/-! ## Resolvers -/

/-- Lets the resolver of a call answer. -/
def answer (scope : Scope ω σ) (phase : Phase) (call : Call ω σ) : Action ω σ (Task ω σ) := do
  let answer ← Action.ask phase call.resolver call.info
  return scope.completeAnswer call.group call.type call.info.path answer

/-- Lets a resolver answer at the end of its suspension. -/
def resume (scope : Scope ω σ) (call : Call ω σ) : Action ω σ (Task ω σ) :=
  scope.answer .ended call

/-- Calls a resolver, which answers or is suspended. -/
def call (scope : Scope ω σ) (call : Call ω σ) : Action ω σ (Task ω σ) :=
  match call.resolver.suspension with
  | none => scope.answer .called call
  | some 0 => do
    Action.report .started call.info
    scope.resume call
  | some (rounds + 1) => do
    Action.report .started call.info
    return .waiting rounds call

/-- Resolves a field whose arguments are coerced. -/
def resolve (scope : Scope ω σ) (group : FieldGroup) (definition : FieldDefinition ω σ)
    (info : ResolveInfo ω) : Action ω σ (Task ω σ) :=
  match definition.resolver? with
  | none => return scope.completeAnswer group definition.type info.path info.defaultAnswer
  | some resolver => scope.call { info, resolver, type := definition.type, group }

/-- Begins the work on a field. -/
def beginField (scope : Scope ω σ) (site : Site ω σ) (group : FieldGroup)
    (definition : FieldDefinition ω σ) : Action ω σ (Task ω σ) :=
  match scope.coerceArguments group.first definition.arguments with
  | .error fault => return fault.toTask (site.fieldPath group) group
  | .ok arguments => scope.resolve group definition (site.info group arguments)

/-- Begins the work at a position. -/
def begin (scope : Scope ω σ) : Job ω σ → Action ω σ (Task ω σ)
  | .field site group definition => scope.beginField site group definition
  | .item group type path resolved => return scope.completeAnswer group type path resolved

end Scope

end GraphQLEngine
