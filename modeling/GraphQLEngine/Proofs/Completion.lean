/-
What a resolved value is completed to.

`Scope.Results` lists the ways in which a value can fit its declared type, and
the faults that it can have, each with its cause; `results_complete` says that
completion comes to one of them.  `Scope.Completes` is the same of answers, and
does not tell faults apart.  A branch that completion yields has only children that have not begun,
at their own places and with their declared types (`Child.Fresh`).
-/
import GraphQLEngine.Proofs.Collection
import GraphQLEngine.Execution.Completion
import GraphQLEngine.Execution.Run
import Mathlib.Data.List.Nodup

namespace GraphQLEngine

variable {ω σ : Type}

theorem Json.isNull_iff {j : Json} : j.isNull = true ↔ j = .null := by
  cases j <;> simp [Json.isNull]

/-! ## Completion -/

namespace Scope

/-- The object that a resolved value is, where an object is expected: JSON data count as objects
unless the declared type is a leaf. -/
inductive ResolvesObject (scope : Scope ω σ) (name : Name) : Resolved ω → ObjectValue ω → Prop
  | object (value : ObjectValue ω) : ResolvesObject scope name (.object value) value
  | json (entries : JsonObject) : ResolvesObject scope name (.leaf (.obj entries)) (.json entries)

/-- The items that a resolved value has, where a list is expected. -/
inductive ResolvesList : Resolved ω → List (Except ResolverFailure (Resolved ω)) → Prop
  | list (items : List (Except ResolverFailure (Resolved ω))) : ResolvesList (.list items) items
  | json (items : List Json) : ResolvesList (.leaf (.arr items)) (items.map (fun j => .ok (.leaf j)))

/-- The task that an answer is completed to. -/
inductive Completes (scope : Scope ω σ) (group : FieldGroup) (type : TypeRef) (path : Path) :
    Except ResolverFailure (Resolved ω) → Task ω σ → Prop
  | failed {answer : Except ResolverFailure (Resolved ω)} (fault : FieldFault) :
      Completes scope group type path answer (fault.toTask path group)
  | null : type.isNonNull = false →
      Completes scope group type path (.ok (.leaf .null)) (.value .null)
  | scalar {t : ScalarType} {j k : Json} :
      type.item? = none → scope.schema.type? type.innerName = some (.scalar t) →
      t.serialize j = .ok k → (k = .null → type.isNonNull = false) →
      Completes scope group type path (.ok (.leaf j)) (.value k)
  | enum {t : EnumType} {j : Json} :
      type.item? = none → scope.schema.type? type.innerName = some (.enum t) → t.has j = true →
      Completes scope group type path (.ok (.leaf j)) (.value j)
  | object {resolved : Resolved ω} {value : ObjectValue ω} {objectType : ObjectType ω σ} :
      type.item? = none → scope.ResolvesObject type.innerName resolved value →
      scope.schema.objectTypeOf type.innerName value = .ok objectType →
      Completes scope group type path (.ok resolved)
        (scope.objectTask ⟨objectType, value, path⟩ group.selections)
  | list {resolved : Resolved ω} {item : TypeRef}
      {items : List (Except ResolverFailure (Resolved ω))} :
      type.item? = some item → ResolvesList resolved items →
      Completes scope group type path (.ok resolved) (scope.listTask group item path items)

/-- What a resolved value is completed to, or the fault that it has, with the cause of each. -/
inductive Results (scope : Scope ω σ) (group : FieldGroup) (type : TypeRef) (path : Path) :
    Resolved ω → Except FieldFault (Task ω σ) → Prop
  | null : type.isNonNull = false →
      Results scope group type path (.leaf .null) (.ok (.value .null))
  | scalar {t : ScalarType} {j k : Json} :
      type.item? = none → scope.schema.type? type.innerName = some (.scalar t) →
      t.serialize j = .ok k → (k = .null → type.isNonNull = false) →
      Results scope group type path (.leaf j) (.ok (.value k))
  | enum {t : EnumType} {j : Json} :
      type.item? = none → scope.schema.type? type.innerName = some (.enum t) → t.has j = true →
      Results scope group type path (.leaf j) (.ok (.value j))
  | object {resolved : Resolved ω} {value : ObjectValue ω} {objectType : ObjectType ω σ} :
      type.item? = none → scope.ResolvesObject type.innerName resolved value →
      scope.schema.objectTypeOf type.innerName value = .ok objectType →
      Results scope group type path resolved
        (.ok (scope.objectTask ⟨objectType, value, path⟩ group.selections))
  | list {resolved : Resolved ω} {item : TypeRef}
      {items : List (Except ResolverFailure (Resolved ω))} :
      type.item? = some item → ResolvesList resolved items →
      Results scope group type path resolved (.ok (scope.listTask group item path items))
  | notNull {resolved : Resolved ω} :
      Results scope group type path resolved (.error (.nonNullViolation type))
  | unexpectedList {items : List (Except ResolverFailure (Resolved ω))} :
      Results scope group type path (.list items) (.error (.unexpectedValue .list (.nonListType type)))
  | noList {resolved : Resolved ω} (found : Found) :
      Results scope group type path resolved (.error (.invalidList type found))
  | noObject (value : Json) :
      Results scope group type path (.leaf value)
        (.error (.unexpectedValue (.json value) (.objectOf type.innerName)))
  | noScalar {t : ScalarType} {value : Json} {message : String} : t.serialize value = .error message →
      Results scope group type path (.leaf value) (.error (.leafCoercion (.refusedByScalar message)))
  | noMember (value : Json) :
      Results scope group type path (.leaf value)
        (.error (.leafCoercion (.notInEnum type.innerName value)))
  | noType {resolved : Resolved ω} {value : ObjectValue ω} {fault : FieldFault} :
      scope.schema.objectTypeOf type.innerName value = .error fault →
      Results scope group type path resolved (.error fault)
  | undefined (value : Json) : scope.schema.type? type.innerName = none →
      Results scope group type path (.leaf value)
        (.error (.unexpectedValue (.json value) (.undefinedType type.innerName)))

variable (scope : Scope ω σ) (group : FieldGroup)

theorem results_leafTask {type : TypeRef} {path : Path} {resolved : Resolved ω} {value : Json}
    (h : (value = .null → type.isNonNull = false) →
      scope.Results group type path resolved (.ok (.value value))) :
    scope.Results group type path resolved (leafTask type value) := by
  rw [leafTask]
  by_cases hv : (value.isNull && type.isNonNull) = true
  · rw [if_pos hv]
    exact .notNull
  · rw [if_neg hv]
    refine h ?_
    intro hn
    simpa [Json.isNull_iff.mpr hn] using hv

theorem results_completeObject {type : TypeRef} {path : Path} {resolved : Resolved ω}
    {value : ObjectValue ω} (hitem : type.item? = none)
    (hres : scope.ResolvesObject type.innerName resolved value) :
    scope.Results group type path resolved
      (scope.completeObject group type.innerName path value) := by
  rw [completeObject]
  cases h : scope.schema.objectTypeOf type.innerName value with
  | ok objectType => exact .object hitem hres h
  | error fault => exact .noType h

theorem results_completeLeaf {type : TypeRef} {path : Path} (value : Json)
    (hitem : type.item? = none) :
    scope.Results group type path (.leaf value)
      (scope.completeLeaf group type type.innerName path value) := by
  unfold completeLeaf Schema.completeLeaf
  cases ht : scope.schema.type? type.innerName with
  | none => exact .undefined value ht
  | some definition =>
      cases definition with
      | scalar t =>
          show scope.Results group type path _ (leafResult type (t.complete value))
          rw [ScalarType.complete]
          cases hs : t.serialize value with
          | ok k => exact scope.results_leafTask group fun hn => .scalar hitem ht hs hn
          | error message => exact .noScalar hs
      | enum t =>
          show scope.Results group type path _ (leafResult type (t.complete type.innerName value))
          rw [EnumType.complete]
          cases hs : t.has value with
          | true => exact scope.results_leafTask group fun _ => .enum hitem ht hs
          | false => exact .noMember value
      | object _ | interface _ | union _ =>
          cases value with
          | obj entries => exact scope.results_completeObject group hitem (.json entries)
          | null | bool _ | int _ | float _ | str _ | arr _ => exact .noObject _

theorem results_completeNamed {type : TypeRef} {path : Path} (hitem : type.item? = none) :
    ∀ resolved : Resolved ω, scope.Results group type path resolved
      (scope.completeNamed group type type.innerName path resolved)
  | .list _ => .unexpectedList
  | .object value => scope.results_completeObject group hitem (.object value)
  | .leaf value => by
      simp only [completeNamed]
      by_cases hn : value.isNull = true
      · rw [if_pos hn, Json.isNull_iff.mp hn]
        exact scope.results_leafTask group fun h => .null (h rfl)
      · rw [if_neg hn]
        exact scope.results_completeLeaf group value hitem

theorem results_completeList {type item : TypeRef} {path : Path}
    (hitem : type.item? = some item) :
    ∀ resolved : Resolved ω, scope.Results group type path resolved
      (scope.completeList group type item path resolved)
  | .list items => .list hitem (.list items)
  | .object _ => .noList .object
  | .leaf (.arr items) => .list hitem (.json items)
  | .leaf .null => scope.results_leafTask group fun h => .null (h rfl)
  | .leaf (.bool _) => .noList _
  | .leaf (.int _) => .noList _
  | .leaf (.float _) => .noList _
  | .leaf (.str _) => .noList _
  | .leaf (.obj _) => .noList _

theorem results_complete (path : Path) (resolved : Resolved ω) :
    ∀ type, scope.Results group type path resolved (scope.complete group type path resolved)
  | .named _ => scope.results_completeNamed group rfl resolved
  | .nonNullNamed _ => scope.results_completeNamed group rfl resolved
  | .list _ => scope.results_completeList group rfl resolved
  | .nonNullList _ => scope.results_completeList group rfl resolved

/-- Completion finds one of the ways in which an answer can fit its type, or fails. -/
theorem completes_completeAnswer (type : TypeRef) (path : Path)
    (answer : Except ResolverFailure (Resolved ω)) :
    scope.Completes group type path answer (scope.completeAnswer group type path answer) := by
  cases answer with
  | error failure => exact .failed _
  | ok resolved =>
      have hresults := scope.results_complete group path resolved type
      rw [completeAnswer]
      generalize scope.complete group type path resolved = result at hresults
      cases result with
      | error fault => exact .failed fault
      | ok task =>
          cases hresults with
          | null hn => exact .null hn
          | scalar hitem ht hs hn => exact .scalar hitem ht hs hn
          | enum hitem ht hj => exact .enum hitem ht hj
          | object hitem hres htype => exact .object hitem hres htype
          | list hitem hres => exact .list hitem hres

end Scope

/-! ## What a branch begins with -/

/-- The place in the response that a job is for. -/
def Job.path : Job ω σ → Path
  | .field site group _ => site.fieldPath group
  | .item _ _ path _ => path

/-- The declared type that the result of a job must fit. -/
def Job.type : Job ω σ → TypeRef
  | .field _ _ definition => definition.type
  | .item _ type _ _ => type

/-- The sub-selections of the fields that a job is for. -/
def Job.selections : Job ω σ → List Selection
  | .field _ group _ => group.selections
  | .item group _ _ _ => group.selections

/-- Whether objects of a type have an entry for a group: for the name of the type, or for a field
that is defined. -/
def ObjectType.answers (type : ObjectType ω σ) (group : FieldGroup) : Bool :=
  group.first.name = "__typename" || (type.fields.get? group.first.name).isSome

/-- The keys that objects of a type have for the groups of a selection set, in their order. -/
def ObjectType.responseKeys (type : ObjectType ω σ) (groups : List FieldGroup) : List Name :=
  groupKeys (groups.filter type.answers)

/-- A child as completion leaves it, below a place in the response. -/
inductive Child.Fresh (path : Path) : Child ω σ → Prop
  | absent (key : Name) : Fresh path (.absent key)
  /-- The name of an object's type needs no work. -/
  | typename (key name : Name) :
      Fresh path (.mk ⟨.key key, .nonNullNamed "String"⟩ (.value (.str name)))
  | job {segment : PathSegment} {job : Job ω σ} :
      job.path = path ++ [segment] → Fresh path (.mk ⟨segment, job.type⟩ (.unstarted job))

/-- The segment of a child that has a place in the response. -/
def Child.segment? : Child ω σ → Option PathSegment
  | .mk position _ => some position.segment
  | .absent _ => none

/-- Segments that the children of a node can have: distinct keys for the fields of an object, and all
indices in order for the items of a list. -/
def Shape.Fits : Shape ω σ → List PathSegment → Prop
  | .object _, segments => segments.Nodup ∧ ∀ s ∈ segments, ∃ key, s = .key key
  | .list, segments => segments = (List.range segments.length).map .index

theorem Shape.Fits.nodup {segments : List PathSegment} :
    ∀ {shape : Shape ω σ}, shape.Fits segments → segments.Nodup
  | .object _, h => h.1
  | .list, h => by
      rw [show segments = _ from h]
      exact List.nodup_range.map fun _ _ => PathSegment.index.inj

namespace Scope

theorem fieldChild_typename {site : Site ω σ} {group : FieldGroup}
    (hn : group.first.name = "__typename") :
    fieldChild site group =
      .mk ⟨.key group.key, .nonNullNamed "String"⟩ (.value (.str site.objectType.name)) := by
  rw [fieldChild, if_pos hn]

theorem fieldChild_absent {site : Site ω σ} {group : FieldGroup}
    (hn : group.first.name ≠ "__typename")
    (hd : site.objectType.fields.get? group.first.name = none) :
    fieldChild site group = .absent group.key := by
  rw [fieldChild, if_neg hn, hd]

theorem fieldChild_field {site : Site ω σ} {group : FieldGroup} {definition : FieldDefinition ω σ}
    (hn : group.first.name ≠ "__typename")
    (hd : site.objectType.fields.get? group.first.name = some definition) :
    fieldChild site group =
      .mk ⟨.key group.key, definition.type⟩ (.unstarted (.field site group definition)) := by
  rw [fieldChild, if_neg hn, hd]

theorem segment_of_fieldChild {site : Site ω σ} {group : FieldGroup} {position : Position}
    {task : Task ω σ} (h : fieldChild site group = .mk position task) :
    position.segment = .key group.key := by
  rw [fieldChild] at h
  split at h
  · cases h; rfl
  · split at h
    · cases h
    · cases h; rfl

theorem fresh_fieldChild (site : Site ω σ) (group : FieldGroup) :
    (fieldChild site group).Fresh site.path := by
  by_cases hn : group.first.name = "__typename"
  · rw [fieldChild_typename hn]
    exact .typename group.key site.objectType.name
  · match hd : site.objectType.fields.get? group.first.name with
    | none =>
        rw [fieldChild_absent hn hd]
        exact .absent group.key
    | some definition =>
        rw [fieldChild_field hn hd]
        exact @Child.Fresh.job _ _ _ _ (.field site group definition) rfl

theorem fresh_fieldChildren (scope : Scope ω σ) (site : Site ω σ) (selections : List Selection) :
    ∀ child ∈ scope.fieldChildren site selections, child.Fresh site.path := by
  intro child hc
  obtain ⟨group, _, rfl⟩ := List.mem_map.mp hc
  exact fresh_fieldChild site group

theorem segments_fieldChildren (site : Site ω σ) :
    ∀ groups : List FieldGroup, (groups.map (fieldChild site)).filterMap Child.segment? =
      (site.objectType.responseKeys groups).map .key
  | [] => rfl
  | group :: rest => by
      have ih := segments_fieldChildren site rest
      simp only [ObjectType.responseKeys, groupKeys] at ih ⊢
      rw [List.map_cons]
      by_cases hn : group.first.name = "__typename"
      · have ha : site.objectType.answers group = true := by simp [ObjectType.answers, hn]
        rw [fieldChild_typename hn, List.filter_cons_of_pos ha, List.map_cons, List.map_cons, ← ih]
        rfl
      · cases hd : site.objectType.fields.get? group.first.name with
        | none =>
            have ha : ¬ site.objectType.answers group = true := by
              simp [ObjectType.answers, hn, hd]
            rw [fieldChild_absent hn hd, List.filter_cons_of_neg ha, ← ih]
            rfl
        | some definition =>
            have ha : site.objectType.answers group = true := by simp [ObjectType.answers, hd]
            rw [fieldChild_field hn hd, List.filter_cons_of_pos ha, List.map_cons, List.map_cons, ← ih]
            rfl

theorem fits_fieldChildren (scope : Scope ω σ) (site : Site ω σ) (selections : List Selection) :
    (Shape.object site).Fits
      ((scope.fieldChildren site selections).filterMap Child.segment?) := by
  have hnodup := scope.nodup_groupKeys_collect site.objectType.name selections
  rw [fieldChildren, segments_fieldChildren]
  constructor
  · exact (hnodup.sublist (List.filter_sublist.map _)).map fun _ _ => PathSegment.key.inj
  · intro s hs
    obtain ⟨key, _, rfl⟩ := List.mem_map.mp hs
    exact ⟨key, rfl⟩

theorem exists_of_mem_itemChildren {group : FieldGroup} {item : TypeRef} {path : Path}
    {child : Child ω σ} : ∀ {i : Nat} {items : List (Except ResolverFailure (Resolved ω))},
      child ∈ (itemChildren group item path i items : List (Child ω σ)) →
        ∃ n answer, child =
          .mk ⟨.index n, item⟩ (.unstarted (.item group item (path ++ [.index n]) answer))
  | _, [], h => by cases h
  | i, answer :: rest, h => by
      rcases List.mem_cons.mp h with rfl | h
      · exact ⟨i, answer, rfl⟩
      · exact exists_of_mem_itemChildren h

theorem length_itemChildren (group : FieldGroup) (item : TypeRef) (path : Path) :
    ∀ (i : Nat) (items : List (Except ResolverFailure (Resolved ω))),
      (itemChildren group item path i items : List (Child ω σ)).length = items.length
  | _, [] => rfl
  | i, _ :: rest => congrArg (· + 1) (length_itemChildren group item path (i + 1) rest)

theorem fresh_itemChildren (group : FieldGroup) (item : TypeRef) (path : Path)
    (items : List (Except ResolverFailure (Resolved ω))) :
    ∀ child ∈ (itemChildren group item path 0 items : List (Child ω σ)), child.Fresh path := by
  intro child hc
  obtain ⟨n, answer, rfl⟩ := exists_of_mem_itemChildren hc
  exact @Child.Fresh.job _ _ _ _ (.item group item (path ++ [.index n]) answer) rfl

theorem segments_itemChildren (group : FieldGroup) (item : TypeRef) (path : Path) :
    ∀ (i : Nat) (items : List (Except ResolverFailure (Resolved ω))),
      (itemChildren group item path i items : List (Child ω σ)).filterMap Child.segment? =
        (List.range' i items.length).map .index
  | _, [] => rfl
  | i, _ :: rest => by
      rw [itemChildren, List.filterMap_cons_some (show Child.segment? _ = some (.index i) from rfl),
        segments_itemChildren _ _ _ (i + 1) rest]
      rfl

theorem fits_itemChildren (group : FieldGroup) (item : TypeRef) (path : Path)
    (items : List (Except ResolverFailure (Resolved ω))) :
    (Shape.list : Shape ω σ).Fits
      ((itemChildren group item path 0 items : List (Child ω σ)).filterMap Child.segment?) := by
  rw [segments_itemChildren]
  simp [Shape.Fits, List.range_eq_range']

end Scope

end GraphQLEngine
