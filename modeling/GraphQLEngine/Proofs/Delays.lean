/-
Changing how long resolvers are suspended.

`Schema.delayed` gives every resolver of an object type a new suspension and
changes nothing else.  What does not call resolvers cannot tell the difference:
coercion, collection and the choice of object types come to the same, with the
new suspensions in the object types that they find (`objectTypeOf_delayed`),
and so does completion (`completeAnswer_delayed`).

How rounds go by with other suspensions is the matter of
Proofs/ScheduleIndependence.
-/
import GraphQLEngine.Execution.Run
import GraphQLEngine.Proofs.Collection

namespace GraphQLEngine

variable {ω σ : Type}

/-- Suspensions for the resolvers of a schema, by object type and field. -/
abbrev Delays := Name → Name → Option Nat

def FieldDefinition.delayed (suspension : Option Nat) (definition : FieldDefinition ω σ) :
    FieldDefinition ω σ :=
  { definition with resolver? := definition.resolver?.map (fun r => { r with suspension }) }

def ObjectType.delayed (delays : Delays) (type : ObjectType ω σ) : ObjectType ω σ :=
  { type with fields := type.fields.map (fun e => (e.1, e.2.delayed (delays type.name e.1))) }

def TypeDefinition.delayed (delays : Delays) : TypeDefinition ω σ → TypeDefinition ω σ
  | .object t => .object (t.delayed delays)
  | .scalar t => .scalar t
  | .interface t => .interface t
  | .union t => .union t
  | .enum t => .enum t

/-- The schema with other suspensions. -/
def Schema.delayed (delays : Delays) (schema : Schema ω σ) : Schema ω σ :=
  { schema with types := schema.types.map (fun e => (e.1, e.2.delayed delays)) }

def Scope.delayed (delays : Delays) (scope : Scope ω σ) : Scope ω σ :=
  { scope with schema := scope.schema.delayed delays }

/-! ## Types -/

namespace Schema

variable (delays : Delays) (schema : Schema ω σ)

@[simp]
theorem type?_delayed (name : Name) :
    (schema.delayed delays).type? name = (schema.type? name).map (·.delayed delays) :=
  OrderedMap.get?_map (fun _ t => TypeDefinition.delayed delays t) name schema.types

@[simp]
theorem object?_delayed (name : Name) :
    (schema.delayed delays).object? name = (schema.object? name).map (·.delayed delays) := by
  unfold object?
  rw [type?_delayed]
  match schema.type? name with
  | none => rfl
  | some (.object _) => rfl
  | some (.scalar _) => rfl
  | some (.interface _) => rfl
  | some (.union _) => rfl
  | some (.enum _) => rfl

theorem get?_fields_delayed (type : ObjectType ω σ) (name : Name) :
    (type.delayed delays).fields.get? name =
      (type.fields.get? name).map (·.delayed (delays type.name name)) :=
  OrderedMap.get?_map (fun key d => FieldDefinition.delayed (delays type.name key) d) name type.fields

@[simp]
theorem possibleTypes_delayed (name : Name) :
    (schema.delayed delays).possibleTypes name = schema.possibleTypes name := by
  simp only [possibleTypes, object?_delayed, Option.isSome_map]
  rfl

@[simp]
theorem fragmentApplies_delayed (objectType condition : Name) :
    (schema.delayed delays).fragmentApplies objectType condition =
      schema.fragmentApplies objectType condition := by
  unfold fragmentApplies
  rw [type?_delayed]
  match schema.type? condition with
  | none => rfl
  | some (.object _) => rfl
  | some (.scalar _) => rfl
  | some (.interface _) => rfl
  | some (.union _) => rfl
  | some (.enum _) => rfl

theorem root?_delayed (kind : OperationKind) :
    (schema.delayed delays).root? kind = (schema.root? kind).map (·.delayed delays) := by
  match kind with
  | .query => exact schema.object?_delayed delays schema.queryType
  | .subscription => rfl
  | .mutation =>
      show schema.mutationType.bind (schema.delayed delays).object? =
        (schema.mutationType.bind schema.object?).map (·.delayed delays)
      match schema.mutationType with
      | none => rfl
      | some name => exact schema.object?_delayed delays name

theorem possibleObject_delayed (abstractType name : Name) :
    (schema.delayed delays).possibleObject abstractType name =
      (schema.possibleObject abstractType name).map (·.delayed delays) := by
  unfold possibleObject
  rw [object?_delayed]
  have hsub : (schema.delayed delays).isSubtype abstractType name =
    schema.isSubtype abstractType name := rfl
  rw [hsub]
  split
  · rfl
  · match schema.object? name with
    | none => rfl
    | some _ => rfl

theorem matching_delayed (abstractType : Name) (value : ObjectValue ω) :
    (schema.delayed delays).matching abstractType value =
      (schema.matching abstractType value).map (·.delayed delays) := by
  have hmap : ∀ names : List Name, names.filterMap (schema.delayed delays).object? =
      (names.filterMap schema.object?).map (·.delayed delays) := by
    intro names
    rw [List.map_filterMap]
    congr 1
    funext name
    exact schema.object?_delayed delays name
  rw [matching, possibleTypes_delayed, hmap, List.filter_map]
  rfl

theorem resolveAbstract_delayed (abstractType : Name)
    (resolveType? : Option (ObjectValue ω → Option Name)) (value : ObjectValue ω) :
    (schema.delayed delays).resolveAbstract abstractType resolveType? value =
      (schema.resolveAbstract abstractType resolveType? value).map (·.delayed delays) := by
  unfold resolveAbstract
  match resolveType? with
  | some resolveType =>
      match hr : resolveType value with
      | none => simp only [hr]; rfl
      | some name => simp only [hr, possibleObject_delayed]
  | none =>
      simp only [matching_delayed]
      match schema.matching abstractType value with
      | [t] => rfl
      | first :: second :: _ => rfl
      | [] =>
          match typenameOf? value with
          | none => simp only [List.map_nil]; rfl
          | some name => simp only [List.map_nil, possibleObject_delayed]

/-- The object type of a value is found alike. -/
theorem objectTypeOf_delayed (name : Name) (value : ObjectValue ω) :
    (schema.delayed delays).objectTypeOf name value =
      (schema.objectTypeOf name value).map (·.delayed delays) := by
  have mapError_map : ∀ {ε ε' : Type} (f : ε → ε') (r : Except ε (ObjectType ω σ)),
      (r.map (·.delayed delays)).mapError f = (r.mapError f).map (·.delayed delays) := by
    intro _ _ f r
    cases r <;> rfl
  unfold objectTypeOf
  rw [type?_delayed]
  match schema.type? name with
  | none => rfl
  | some (.object t) =>
      show (if (t.isTypeOf?.map (fun test => test value)) == some false then _ else _) = _
      simp only
      split <;> rfl
  | some (.scalar _) => rfl
  | some (.interface i) =>
      simp only [Option.map_some, TypeDefinition.delayed, resolveAbstract_delayed, mapError_map]
  | some (.union u) =>
      simp only [Option.map_some, TypeDefinition.delayed, resolveAbstract_delayed, mapError_map]
  | some (.enum _) => rfl

end Schema

/-! ## Input -/

namespace Schema

variable (delays : Delays) (schema : Schema ω σ)

theorem coerceNamedInput_delayed (name : Name) (value : Json) :
    (schema.delayed delays).coerceNamedInput name value = schema.coerceNamedInput name value := by
  unfold coerceNamedInput
  rw [type?_delayed]
  match schema.type? name with
  | none => rfl
  | some (.object _) => rfl
  | some (.scalar _) => rfl
  | some (.interface _) => rfl
  | some (.union _) => rfl
  | some (.enum _) => rfl

@[simp]
theorem coerceInput_delayed :
    ∀ type, (schema.delayed delays).coerceInput type = schema.coerceInput type
  | .named name => by
      funext value
      rw [coerceInput, coerceInput, coerceNamedInput_delayed]
  | .nonNullNamed name => by
      funext value
      rw [coerceInput, coerceInput, coerceNamedInput_delayed]
  | .list item => by
      funext value
      rw [coerceInput, coerceInput, coerceInput_delayed item]
  | .nonNullList item => by
      funext value
      rw [coerceInput, coerceInput, coerceInput_delayed item]

theorem bindVariables_delayed (provided : JsonObject) :
    ∀ (definitions : List VariableDefinition) (bound : JsonObject),
      (schema.delayed delays).bindVariables provided definitions bound =
        schema.bindVariables provided definitions bound
  | [], _ => rfl
  | d :: rest, bound => by
      rw [bindVariables, bindVariables, coerceInput_delayed]
      match variableInput? provided d with
      | none => exact bindVariables_delayed provided rest bound
      | some value =>
          simp only
          match schema.coerceInput d.type value with
          | .ok coerced => exact bindVariables_delayed provided rest _
          | .error _ => rfl

end Schema

namespace Scope

variable (delays : Delays) (scope : Scope ω σ)

theorem argumentValue_delayed (name : Name) (definition : ArgumentDefinition)
    (given : Option Literal) :
    (scope.delayed delays).argumentValue name definition given =
      scope.argumentValue name definition given := by
  have hgiven : (scope.delayed delays).givenValue definition.type given =
      scope.givenValue definition.type given := by
    unfold givenValue
    split
    · rfl
    · rfl
    · show ((scope.schema.delayed delays).coerceInput definition.type _).map some = _
      rw [Schema.coerceInput_delayed]
      rfl
  rw [argumentValue, argumentValue, hgiven]

@[simp]
theorem coerceArguments_delayed (field : Field) :
    ∀ definitions, (scope.delayed delays).coerceArguments field definitions =
      scope.coerceArguments field definitions
  | [] => rfl
  | (name, definition) :: rest => by
      rw [coerceArguments, coerceArguments, argumentValue_delayed,
        coerceArguments_delayed field rest]

/-! ## Collection -/

theorem applies_delayed (objectType : Name) (condition : Option Name) :
    (scope.delayed delays).applies objectType condition = scope.applies objectType condition := by
  match condition with
  | none => rfl
  | some name => exact scope.schema.fragmentApplies_delayed delays objectType name

section Expand

variable (objectType : Name) (expand : Fragment → Collected → Collected)

theorem collectSpread_delayed (name : Name) (acc : Collected) :
    (scope.delayed delays).collectSpread objectType expand name acc =
      scope.collectSpread objectType expand name acc := by
  simp only [collectSpread, applies_delayed]
  rfl

mutual

theorem collectOne_delayed : ∀ (s : Selection) (acc : Collected),
    (scope.delayed delays).collectOne objectType expand s acc =
      scope.collectOne objectType expand s acc
  | .field f, acc => by
      rw [collectOne, collectOne]
      rfl
  | .spread s, acc => by
      rw [collectOne, collectOne, collectSpread_delayed]
      rfl
  | .inlineFragment ⟨condition, dirs, selections, location⟩, acc => by
      rw [collectOne, collectOne, applies_delayed, collectEach_delayed selections acc]
      rfl

theorem collectEach_delayed : ∀ (ss : List Selection) (acc : Collected),
    (scope.delayed delays).collectEach objectType expand ss acc =
      scope.collectEach objectType expand ss acc
  | [], _ => by rw [collectEach, collectEach]
  | s :: rest, acc => by
      rw [collectEach, collectEach, collectOne_delayed s acc, collectEach_delayed rest]

end

end Expand

theorem collectWithin_delayed (objectType : Name) :
    ∀ (depth : Nat) (ss : List Selection) (acc : Collected),
      (scope.delayed delays).collectWithin objectType depth ss acc =
        scope.collectWithin objectType depth ss acc
  | 0, ss, acc => by
      rw [collectWithin, collectWithin, collectEach_delayed]
  | depth + 1, ss, acc => by
      have ih : (fun (fragment : Fragment) acc =>
          (scope.delayed delays).collectWithin objectType depth fragment.selections acc) =
            fun fragment acc => scope.collectWithin objectType depth fragment.selections acc := by
        funext fragment acc
        exact collectWithin_delayed objectType depth fragment.selections acc
      rw [collectWithin, collectWithin, collectEach_delayed, ih]

@[simp]
theorem collect_delayed (objectType : Name) (ss : List Selection) :
    (scope.delayed delays).collect objectType ss = scope.collect objectType ss :=
  congrArg Collected.groups (scope.collectWithin_delayed delays objectType _ ss _)

end Scope

/-! ## Tasks -/

def Site.delayed (delays : Delays) (site : Site ω σ) : Site ω σ :=
  { site with objectType := site.objectType.delayed delays }

def Job.delayed (delays : Delays) : Job ω σ → Job ω σ
  | .field site group definition =>
    .field (site.delayed delays) group
      (definition.delayed (delays site.objectType.name group.first.name))
  | .item group type path answer => .item group type path answer

def Shape.delayed (delays : Delays) : Shape ω σ → Shape ω σ
  | .object site => .object (site.delayed delays)
  | .list => .list

mutual

/-- A task for a schema with other suspensions.  Calls that are suspended already stay as they are. -/
def Task.delayed (delays : Delays) : Task ω σ → Task ω σ
  | .value json => .value json
  | .failed error => .failed error
  | .unstarted job => .unstarted (job.delayed delays)
  | .waiting rounds call => .waiting rounds call
  | .branch shape turns children =>
    .branch (shape.delayed delays) turns (Child.delayedAll delays children)

def Child.delayedAll (delays : Delays) : List (Child ω σ) → List (Child ω σ)
  | [] => []
  | .absent key :: rest => .absent key :: Child.delayedAll delays rest
  | .mk position task :: rest => .mk position (task.delayed delays) :: Child.delayedAll delays rest

end

namespace Scope

variable (delays : Delays) (scope : Scope ω σ)

theorem map_fieldChild_delayed (site : Site ω σ) :
    ∀ groups : List FieldGroup, groups.map (fieldChild (site.delayed delays)) =
      Child.delayedAll delays (groups.map (fieldChild site))
  | [] => rfl
  | group :: rest => by
      rw [List.map_cons, List.map_cons, map_fieldChild_delayed site rest]
      by_cases hn : group.first.name = "__typename"
      · rw [fieldChild, fieldChild, if_pos hn, if_pos hn]
        rfl
      · have hfields := Schema.get?_fields_delayed delays site.objectType group.first.name
        rw [fieldChild, fieldChild, if_neg hn, if_neg hn]
        simp only [Site.delayed, hfields]
        match site.objectType.fields.get? group.first.name with
        | none => rfl
        | some definition => rfl

theorem fieldChildren_delayed (site : Site ω σ) (selections : List Selection) :
    (scope.delayed delays).fieldChildren (site.delayed delays) selections =
      Child.delayedAll delays (scope.fieldChildren site selections) := by
  rw [fieldChildren, collect_delayed]
  exact map_fieldChild_delayed delays site _

theorem length_delayedAll : ∀ children : List (Child ω σ),
    (Child.delayedAll delays children).length = children.length
  | [] => rfl
  | .absent _ :: rest => congrArg (· + 1) (length_delayedAll rest)
  | .mk _ _ :: rest => congrArg (· + 1) (length_delayedAll rest)

theorem objectTask_delayed (site : Site ω σ) (selections : List Selection) :
    (scope.delayed delays).objectTask (site.delayed delays) selections =
      (scope.objectTask site selections).delayed delays := by
  simp only [objectTask, Task.delayed, fieldChildren_delayed, length_delayedAll]
  rfl

theorem delayedAll_itemChildren (group : FieldGroup) (item : TypeRef) (path : Path) :
    ∀ (i : Nat) (items : List (Except ResolverFailure (Resolved ω))),
      Child.delayedAll delays (itemChildren group item path i items : List (Child ω σ)) =
        itemChildren group item path i items
  | _, [] => rfl
  | i, _ :: rest => congrArg (_ :: ·) (delayedAll_itemChildren group item path (i + 1) rest)

theorem listTask_delayed (group : FieldGroup) (item : TypeRef) (path : Path)
    (items : List (Except ResolverFailure (Resolved ω))) :
    (scope.delayed delays).listTask group item path items =
      (scope.listTask group item path items).delayed delays := by
  rw [listTask, listTask, Task.delayed, delayedAll_itemChildren]
  rfl

theorem leafTask_delayed (type : TypeRef) (value : Json) :
    (leafTask type value : Except FieldFault (Task ω σ)) =
      (leafTask type value).map (Task.delayed delays) := by
  rw [leafTask]
  split <;> rfl

theorem leafResult_delayed (type : TypeRef) :
    ∀ result, (leafResult type result : Except FieldFault (Task ω σ)) =
      (leafResult type result).map (Task.delayed delays)
  | .ok value => leafTask_delayed delays type value
  | .error _ => rfl

theorem completeObject_delayed (group : FieldGroup) (name : Name) (path : Path)
    (value : ObjectValue ω) :
    (scope.delayed delays).completeObject group name path value =
      (scope.completeObject group name path value).map (Task.delayed delays) := by
  have htype := scope.schema.objectTypeOf_delayed delays name value
  unfold completeObject
  rw [show (scope.delayed delays).schema = scope.schema.delayed delays from rfl, htype]
  match scope.schema.objectTypeOf name value with
  | .error _ => rfl
  | .ok objectType =>
      exact congrArg Except.ok
        (scope.objectTask_delayed delays ⟨objectType, value, path⟩ group.selections)

theorem completeLeaf_delayed (group : FieldGroup) (type : TypeRef) (name : Name) (path : Path)
    (value : Json) :
    (scope.delayed delays).completeLeaf group type name path value =
      (scope.completeLeaf group type name path value).map (Task.delayed delays) := by
  unfold completeLeaf Schema.completeLeaf
  rw [show (scope.delayed delays).schema = scope.schema.delayed delays from rfl, Schema.type?_delayed]
  cases scope.schema.type? name with
  | none => rfl
  | some t =>
      cases t with
      | scalar t => exact leafResult_delayed delays type _
      | enum t => exact leafResult_delayed delays type _
      | object _ | interface _ | union _ =>
          -- Where an object is expected, JSON data can be one.
          cases value with
          | obj entries => exact scope.completeObject_delayed delays group name path _
          | null | bool _ | int _ | float _ | str _ | arr _ => rfl

theorem completeNamed_delayed (group : FieldGroup) (type : TypeRef) (name : Name) (path : Path) :
    ∀ resolved : Resolved ω, (scope.delayed delays).completeNamed group type name path resolved =
      (scope.completeNamed group type name path resolved).map (Task.delayed delays)
  | .list _ => rfl
  | .object value => scope.completeObject_delayed delays group name path value
  | .leaf value => by
      simp only [completeNamed]
      split
      · exact leafTask_delayed delays type .null
      · exact scope.completeLeaf_delayed delays group type name path value

theorem completeList_delayed (group : FieldGroup) (type item : TypeRef) (path : Path) :
    ∀ resolved : Resolved ω, (scope.delayed delays).completeList group type item path resolved =
      (scope.completeList group type item path resolved).map (Task.delayed delays)
  | .list items => congrArg Except.ok (scope.listTask_delayed delays group item path items)
  | .object _ => rfl
  | .leaf (.arr _) => congrArg Except.ok (scope.listTask_delayed delays group item path _)
  | .leaf .null => leafTask_delayed delays type .null
  | .leaf (.bool _) => rfl
  | .leaf (.int _) => rfl
  | .leaf (.float _) => rfl
  | .leaf (.str _) => rfl
  | .leaf (.obj _) => rfl

theorem complete_delayed (group : FieldGroup) (path : Path) (resolved : Resolved ω) :
    ∀ type, (scope.delayed delays).complete group type path resolved =
      (scope.complete group type path resolved).map (Task.delayed delays)
  | .named name => scope.completeNamed_delayed delays group _ name path resolved
  | .nonNullNamed name => scope.completeNamed_delayed delays group _ name path resolved
  | .list item => scope.completeList_delayed delays group _ item path resolved
  | .nonNullList item => scope.completeList_delayed delays group _ item path resolved

/-- Answers are completed alike. -/
theorem completeAnswer_delayed (group : FieldGroup) (type : TypeRef) (path : Path)
    (answer : Except ResolverFailure (Resolved ω)) :
    (scope.delayed delays).completeAnswer group type path answer =
      (scope.completeAnswer group type path answer).delayed delays := by
  cases answer with
  | error _ => rfl
  | ok resolved =>
      rw [completeAnswer, completeAnswer, complete_delayed]
      cases scope.complete group type path resolved <;> rfl

end Scope

end GraphQLEngine
