/-
Faults that the schema itself would be to blame for.

Coercion and completion look up types by name, and have a fault ready for a name
that is not defined, or that stands for a type of the wrong kind
(`FieldFault.Internal`).  In a schema whose references lead where they should they
never need it.  The names that they look up are those of declared fields and of
their arguments, below any number of lists, and this goes on from each job to the
jobs below it, whatever resolvers answer (`Scope.inherits_within`).  So executions
in a built schema are spared such faults (`SchemaDraft.execute_spares`).

The types of variables come from the document.  They may well be undefined, and then
the request is refused.
-/
import GraphQLEngine.Proofs.Conformance
import GraphQLEngine.Proofs.ErrorSources
import GraphQLEngine.Proofs.InputValues
import GraphQLEngine.Proofs.References
import GraphQLEngine.Proofs.Refusals

namespace GraphQLEngine

variable {ω σ : Type}

/-! ## Internal faults -/

/-- Reasons that say that a type is undefined, or not for input. -/
inductive InputError.Internal : InputError → Prop
  | notInputType (name : Name) (found : String) : Internal (.notInputType name found)
  | undefinedType (name : Name) : Internal (.undefinedType name)

/-- Faults that say that a name within the schema leads nowhere, or to a type of the wrong kind. -/
inductive FieldFault.Internal : FieldFault → Prop
  | undefinedType (found : Found) (name : Name) : Internal (.unexpectedValue found (.undefinedType name))
  | notLeaf (name : Name) : Internal (.leafCoercion (.notLeaf name))
  | notObject (abstractType name : Name) : Internal (.ambiguousType abstractType (.notObject name))
  | argument (argument : Name) {reason : InputError} :
      reason.Internal → Internal (.invalidArgument argument reason)

/-! ## Input -/

namespace Schema

variable {schema : Schema ω σ}

theorem coerceNamedInput_not_internal {name : Name} {type : TypeDefinition ω σ}
    (htype : schema.type? name = some type) (hinput : type.isInput = true) {value : Json}
    {reason : InputError} (h : schema.coerceNamedInput name value = .error reason) :
    ¬ reason.Internal := by
  rw [coerceNamedInput, htype] at h
  cases type with
  | scalar t =>
      cases hparse : t.parse value with
      | ok _ => simp [hparse] at h
      | error message =>
          simp only [hparse, Except.error.injEq] at h
          subst h
          rintro ⟨⟩
  | enum t =>
      dsimp only at h
      split at h
      · cases h
      · cases h
        rintro ⟨⟩
  | object _ | interface _ | union _ => cases hinput

/-- A type that leads to an input type gives no internal reason, however many lists it nests. -/
theorem coerceInput_not_internal {d : TypeDefinition ω σ} (hinput : d.isInput = true) :
    ∀ {type : TypeRef} {value : Json} {reason : InputError},
      schema.type? type.innerName = some d → schema.coerceInput type value = .error reason →
      ¬ reason.Internal := by
  have null : ∀ {type : TypeRef} {reason : InputError}, schema.coerceInput type .null = .error reason →
      ¬ reason.Internal := by
    intro type reason h
    obtain rfl := eq_of_coerceInput_null_error h
    rintro ⟨⟩
  intro type
  induction type using TypeRef.inductOnItem with
  | leaf type hleaf =>
      intro value reason htype h
      by_cases hvalue : value = .null
      · subst hvalue
        exact null h
      · rw [coerceInput_leaf hvalue hleaf] at h
        exact coerceNamedInput_not_internal htype hinput h
  | list type item hitem ih =>
      intro value reason htype h
      by_cases hvalue : value = .null
      · subst hvalue
        exact null h
      · obtain ⟨j, -, herror⟩ := exists_of_coerceInput_list_error hvalue hitem h
        rw [← TypeRef.innerName_of_item? hitem] at htype
        exact ih htype herror

end Schema

namespace Scope

variable {scope : Scope ω σ} {fault : FieldFault}

theorem argumentValue_not_internal {name : Name} {definition : ArgumentDefinition}
    {type : TypeDefinition ω σ} (htype : scope.schema.type? definition.type.innerName = some type)
    (hinput : type.isInput = true) {given : Option Literal}
    (h : scope.argumentValue name definition given = .error fault) : ¬ fault.Internal := by
  have hgiven : ∀ reason, scope.givenValue definition.type given = .error reason →
      ¬ reason.Internal := by
    intro reason herror
    rw [givenValue.eq_def] at herror
    split at herror
    · cases herror
    · cases herror
    · rename_i literal _
      cases hcoerce : scope.schema.coerceInput definition.type (literal.toJson scope.bindings) with
      | ok _ => simp [hcoerce, Except.map] at herror
      | error reason' =>
          simp only [hcoerce, Except.map, Except.error.injEq] at herror
          exact herror ▸ Schema.coerceInput_not_internal hinput htype hcoerce
  rw [argumentValue] at h
  cases hvalue : scope.givenValue definition.type given with
  | error reason =>
      simp only [hvalue, Except.error.injEq] at h
      subst h
      rintro (_ | _ | _ | ⟨_, hinternal⟩)
      exact hgiven reason hvalue hinternal
  | ok value =>
      simp only [hvalue] at h
      split at h
      · split at h
        · cases h
          rintro ⟨⟩
        · cases h
      · split at h
        · cases h
          rintro (_ | _ | _ | ⟨_, ⟨⟩⟩)
        · cases h

/-- Arguments whose types lead to input types have no internal fault. -/
theorem coerceArguments_not_internal {field : Field} {definitions : OrderedMap ArgumentDefinition}
    (hinput : ∀ argument ∈ definitions, ∃ type,
      scope.schema.type? argument.2.type.innerName = some type ∧ type.isInput = true)
    (h : scope.coerceArguments field definitions = .error fault) : ¬ fault.Internal := by
  obtain ⟨name, definition, hmem, herror⟩ := exists_of_coerceArguments_error h
  obtain ⟨type, htype, htypeInput⟩ := hinput _ hmem
  exact argumentValue_not_internal htype htypeInput herror

end Scope

/-! ## Object types of values -/

namespace Schema

variable {schema : Schema ω σ}

theorem possibleObject_not_internal (hlinked : schema.Linked) {abstractType name : Name}
    {reason : TypeResolutionError} (h : schema.possibleObject abstractType name = .error reason) :
    ∀ other, reason ≠ .notObject other := by
  rw [possibleObject] at h
  split at h
  · cases h
    rintro _ ⟨⟩
  · rename_i hsub
    -- The name is listed, and all names that are listed are those of object types.
    have hlisted : name ∈ (schema.possible.get? abstractType).getD [] := by
      simp only [isSubtype, Bool.or_eq_true, Bool.not_eq_true', Bool.or_eq_false_iff,
        beq_eq_false_iff_ne, beq_iff_eq, List.contains_eq_mem, decide_eq_false_iff_not,
        not_or, not_and, not_not] at hsub
      exact hsub.1 fun heq => hsub.2 heq.symm
    obtain ⟨type, htype⟩ := hlinked.possible abstractType name hlisted
    simp [htype] at h

theorem resolveAbstract_not_internal (hlinked : schema.Linked) {abstractType : Name}
    {resolveType? : Option (ObjectValue ω → Option Name)} {value : ObjectValue ω}
    {reason : TypeResolutionError}
    (h : schema.resolveAbstract abstractType resolveType? value = .error reason) :
    ∀ other, reason ≠ .notObject other := by
  rw [resolveAbstract.eq_def] at h
  split at h
  · split at h
    · exact possibleObject_not_internal hlinked h
    · cases h
      rintro _ ⟨⟩
  · split at h
    · cases h
    · cases h
      rintro _ ⟨⟩
    · split at h
      · exact possibleObject_not_internal hlinked h
      · cases h
        rintro _ ⟨⟩

/-- The search for an object type has no internal fault. -/
theorem objectTypeOf_not_internal (hlinked : schema.Linked) {name : Name} {value : ObjectValue ω}
    {fault : FieldFault} (h : schema.objectTypeOf name value = .error fault) : ¬ fault.Internal := by
  have abstract : ∀ {resolveType? : Option (ObjectValue ω → Option Name)},
      (schema.resolveAbstract name resolveType? value).mapError (.ambiguousType name) = .error fault →
      ¬ fault.Internal := by
    intro resolveType? herror
    cases hresolve : schema.resolveAbstract name resolveType? value with
    | ok _ => simp [hresolve, Except.mapError] at herror
    | error reason =>
        simp only [hresolve, Except.mapError, Except.error.injEq] at herror
        subst herror
        rintro (_ | _ | _ | _)
        exact resolveAbstract_not_internal hlinked hresolve _ rfl
  rw [objectTypeOf.eq_def] at h
  split at h
  · split at h
    · cases h
      rintro ⟨⟩
    · cases h
  · exact abstract h
  · exact abstract h
  · cases h
    rintro ⟨⟩
  · cases h
    rintro ⟨⟩
  · cases h
    rintro ⟨⟩

end Schema

/-! ## Completion -/

namespace Scope

variable {scope : Scope ω σ} {group : FieldGroup} {type : TypeRef} {path : Path}

/-- Where the declared type is defined, completion has no internal fault. -/
theorem complete_not_internal (hlinked : scope.schema.Linked) {d : TypeDefinition ω σ}
    (htype : scope.schema.type? type.innerName = some d) {resolved : Resolved ω} {fault : FieldFault}
    (h : scope.complete group type path resolved = .error fault) : ¬ fault.Internal := by
  have hresults := scope.results_complete group path resolved type
  rw [h] at hresults
  cases hresults with
  | notNull => rintro ⟨⟩
  | unexpectedList => rintro ⟨⟩
  | noList found => rintro ⟨⟩
  | noObject value => rintro ⟨⟩
  | noScalar _ => rintro ⟨⟩
  | noMember value => rintro ⟨⟩
  | noType htypeOf => exact Schema.objectTypeOf_not_internal hlinked htypeOf
  | undefined value hnone =>
      rw [htype] at hnone
      cases hnone

end Scope

/-! ## Jobs -/

/-- A job for a field that the schema declares, or for an item of such a field's list. -/
inductive Job.Within (schema : Schema ω σ) : Job ω σ → Prop
  | field {site : Site ω σ} {group : FieldGroup} {definition : FieldDefinition ω σ} :
      schema.Declares definition → Within schema (.field site group definition)
  | item {group : FieldGroup} {type : TypeRef} {path : Path}
      {answer : Except ResolverFailure (Resolved ω)} {definition : FieldDefinition ω σ} :
      schema.Declares definition → type.innerName = definition.type.innerName →
      Within schema (.item group type path answer)

/-- The type of a job is, but for lists, that of a declared field. -/
theorem Job.Within.exists_declares {schema : Schema ω σ} {job : Job ω σ} (h : job.Within schema) :
    ∃ definition, schema.Declares definition ∧ job.type.innerName = definition.type.innerName := by
  cases h with
  | field hdeclares => exact ⟨_, hdeclares, rfl⟩
  | item hdeclares hname => exact ⟨_, hdeclares, hname⟩

namespace Scope

variable {scope : Scope ω σ}

/-- Below the fields of a schema there are only fields of the schema, whatever types values have. -/
theorem inherits_within (scope : Scope ω σ) : scope.Inherits (Job.Within scope.schema) := by
  intro job below h hbelow
  cases hbelow with
  | field _ htype _ hfield =>
      exact .field (Schema.declares_of_objectTypeOf htype hfield)
  | item i hitem =>
      obtain ⟨definition, hdeclares, hname⟩ := h.exists_declares
      exact .item hdeclares ((TypeRef.innerName_of_item? hitem).trans hname)

theorem meets_not_internal (hlinked : scope.schema.Linked) {job : Job ω σ}
    (hjob : job.Within scope.schema) {fault : FieldFault} (h : scope.Meets job fault) :
    ¬ fault.Internal := by
  cases h with
  | arguments hargs =>
      cases hjob with
      | field hdeclares => exact coerceArguments_not_internal (hlinked.argument _ hdeclares) hargs
  | failure _ failure => rintro ⟨⟩
  | completion hcomplete =>
      obtain ⟨definition, hdeclares, hname⟩ := hjob.exists_declares
      obtain ⟨d, hd⟩ := hlinked.field definition hdeclares
      exact complete_not_internal hlinked (hname ▸ hd) hcomplete

end Scope

/-! ## Requests -/

namespace Schema

variable {schema : Schema ω σ} {request : Request ω} {operation : Operation} {root : ObjectType ω σ}
  {prepared : Prepared ω σ}

theorem Prepares.within_of_reaches (hp : schema.Prepares request operation root prepared)
    {job : Job ω σ} (h : prepared.Reaches job) : job.Within schema := by
  have hschema : prepared.scope.schema = schema := by rw [hp.scope_eq]
  have hstart : ∀ job, prepared.start.Holds job → job.Within prepared.scope.schema := by
    intro job hjob
    obtain ⟨group, definition, _, hdeclares, rfl⟩ := hp.exists_of_start_holds hjob
    rw [hschema]
    exact .field hdeclares
  exact hschema ▸ h.of_inherits prepared.scope.inherits_within hstart

theorem Prepares.not_internal (hp : schema.Prepares request operation root prepared)
    (hlinked : schema.Linked) {job : Job ω σ} (hjob : prepared.Reaches job) {fault : FieldFault}
    (h : prepared.scope.Meets job fault) : ¬ fault.Internal := by
  have hschema : prepared.scope.schema = schema := by rw [hp.scope_eq]
  have hwithin := hp.within_of_reaches hjob
  rw [← hschema] at hlinked hwithin
  exact Scope.meets_not_internal hlinked hwithin h

/-- Only a mutation can lack a root type, and only where the schema names none. -/
theorem rejects_undefinedRoot_iff (hlinked : schema.Linked) {kind : OperationKind} :
    schema.Rejects request (.undefinedRoot kind) ↔
      kind = .mutation ∧ schema.mutationType = none ∧
        ∃ operation, request.document.Selects request.operationName operation ∧
          operation.kind = .mutation := by
  constructor
  · intro h
    cases h with
    | unselectable h =>
        generalize request.operationName = name? at h
        cases h
    | @rootless operation hselects hkind hroot =>
        cases hop : operation.kind with
        | query =>
            obtain ⟨type, htype⟩ := hlinked.query
            rw [hop, root?, htype] at hroot
            cases hroot
        | subscription => exact absurd hop hkind
        | mutation =>
            refine ⟨rfl, ?_, operation, hselects, hop⟩
            cases hmutation : schema.mutationType with
            | none => rfl
            | some name =>
                obtain ⟨type, htype⟩ := hlinked.mutation name hmutation
                rw [hop, root?, hmutation, Option.bind_some, htype] at hroot
                cases hroot
  · rintro ⟨rfl, hmutation, operation, hselects, hkind⟩
    have hroot : schema.root? operation.kind = none := by
      rw [hkind, root?, hmutation, Option.bind_none]
    have hexecutable : operation.kind ≠ .subscription := by
      rw [hkind]
      rintro ⟨⟩
    exact hkind ▸ .rootless hselects hexecutable hroot

/-- A variable with an internal reason has a type that is no input type of the schema. -/
theorem Misfits.not_input {provided : JsonObject} {definition : VariableDefinition}
    {reason : InputError} (h : schema.Misfits provided definition reason) (hinternal : reason.Internal) :
    ∀ type, schema.type? definition.type.innerName = some type → type.isInput = false := by
  obtain ⟨value, _, herror⟩ := h
  intro type htype
  by_contra hinput
  exact coerceInput_not_internal (Bool.not_eq_false _ ▸ hinput) htype herror hinternal

end Schema

/-! ## Fields of a group -/

/-- Enters a field at the end of the list of its response key, in a table where lists may be empty. -/
def enterField (table : OrderedMap (List Field)) (field : Field) : OrderedMap (List Field) :=
  table.insert field.responseKey ((table.get? field.responseKey).getD [] ++ [field])

def FieldGroup.entry (group : FieldGroup) : String × List Field :=
  (group.key, group.fields)

theorem entries_addToGroups (field : Field) : ∀ groups : List FieldGroup,
    (addToGroups field groups).map FieldGroup.entry = enterField (groups.map FieldGroup.entry) field
  | [] => rfl
  | g :: rest => by
      have ih := entries_addToGroups field rest
      by_cases hkey : g.key = field.responseKey
      · simp [addToGroups, enterField, OrderedMap.insert, OrderedMap.get?, FieldGroup.entry,
          FieldGroup.fields, hkey]
      · rw [addToGroups, if_neg hkey, List.map_cons, ih]
        simp [enterField, OrderedMap.insert, OrderedMap.get?, FieldGroup.entry, hkey]

/-- Groups are the lists that a table of their fields comes to have. -/
theorem entries_groupFields : ∀ (fields : List Field) (groups : List FieldGroup),
    (groupFields fields groups).map FieldGroup.entry =
      fields.foldl enterField (groups.map FieldGroup.entry)
  | [], _ => rfl
  | field :: rest, groups => by
      rw [List.foldl_cons, ← entries_addToGroups]
      exact entries_groupFields rest (addToGroups field groups)

theorem responseKey_of_mem_addToGroups {field : Field} {g : FieldGroup} :
    ∀ {groups : List FieldGroup}, (∀ g ∈ groups, g.first.responseKey = g.key) →
      g ∈ addToGroups field groups → g.first.responseKey = g.key
  | [], _, h => by
      obtain rfl := List.mem_singleton.mp h
      rfl
  | g' :: rest, hgroups, h => by
      obtain ⟨hfirst, hrest⟩ := List.forall_mem_cons.mp hgroups
      rw [addToGroups] at h
      split at h
      · rcases List.mem_cons.mp h with rfl | h
        · exact hfirst
        · exact hrest g h
      · rcases List.mem_cons.mp h with rfl | h
        · exact hfirst
        · exact responseKey_of_mem_addToGroups hrest h

theorem responseKey_of_mem_groupFields {g : FieldGroup} :
    ∀ {fields : List Field} {groups : List FieldGroup}, (∀ g ∈ groups, g.first.responseKey = g.key) →
      g ∈ groupFields fields groups → g.first.responseKey = g.key
  | [], _, hgroups, h => hgroups g h
  | _ :: _, _, hgroups, h =>
      responseKey_of_mem_groupFields (fun _ => responseKey_of_mem_addToGroups hgroups) h

/-- What a table of the fields of a selection set has in it: its lists are the groups that are
collected, and each has a first field, with the key of the list. -/
structure Scope.Tabulates (scope : Scope ω σ) (objectType : Name) (selections : List Selection)
    (table : OrderedMap (List Field)) : Prop where
  entries : table = (scope.collect objectType selections).map FieldGroup.entry
  first : ∀ key fields, (key, fields) ∈ table →
    ∃ field, fields[0]? = some field ∧ field.responseKey = key

theorem Scope.exists_tabulates (scope : Scope ω σ) (objectType : Name) (selections : List Selection) :
    ∃ visited fields, scope.Flattens objectType [] selections visited fields ∧
      scope.Tabulates objectType selections (fields.foldl enterField []) := by
  obtain ⟨visited, fields, hflat, hcollect⟩ := scope.collect_flattens objectType selections
  have hentries : fields.foldl enterField [] =
      (scope.collect objectType selections).map FieldGroup.entry := by
    rw [hcollect, entries_groupFields]
    rfl
  refine ⟨visited, fields, hflat, hentries, ?_⟩
  intro key group hmem
  rw [hentries, hcollect] at hmem
  obtain ⟨g, hg, heq⟩ := List.mem_map.mp hmem
  cases heq
  exact ⟨g.first, rfl, responseKey_of_mem_groupFields (fun _ hnil => by cases hnil) hg⟩

/-! ## Built schemas -/

/-- Internal faults that the execution of a request is spared, in the schema that a draft builds. -/
structure SchemaDraft.Spares (draft : SchemaDraft ω σ) (schema : Schema ω σ) (request : Request ω)
    (state : σ) : Prop where
  /-- No query lacks a root type, and a mutation does just if the draft names none. -/
  undefinedRoot_iff : ∀ kind, (schema.execute request state).ending = .refused (.undefinedRoot kind) ↔
    0 < request.rounds ∧ kind = .mutation ∧ draft.mutation = none ∧
      ∃ operation, request.document.Selects request.operationName operation ∧
        operation.kind = .mutation
  /-- A type that is undefined, or is not for input, is that of a variable. -/
  variableType : ∀ name reason location,
    (schema.execute request state).ending = .refused (.invalidVariable name reason location) →
    reason.Internal → ∃ operation definition,
      request.document.Selects request.operationName operation ∧
      definition ∈ operation.variableDefinitions ∧ definition.name = name ∧
      ∀ type, schema.type? definition.type.innerName = some type → type.isInput = false
  /-- Whatever resolvers return, no job of the request meets with an internal fault. -/
  jobs : ∀ prepared, schema.prepare request = .ok prepared → ∀ job fault,
    prepared.Reaches job → prepared.scope.Meets job fault → ¬ fault.Internal
  /-- The work on the request, finished or not, is that of its jobs. -/
  work : ∀ prepared, schema.prepare request = .ok prepared → ∀ work,
    (schema.execute request state).work = some work →
    work.StemsFrom prepared.scope prepared.Reaches
  /-- So are the errors of its response. -/
  errors : ∀ response, (schema.execute request state).ending = .responded response →
    ∃ prepared, schema.prepare request = .ok prepared ∧
      ∀ e ∈ response.errors, prepared.scope.Reports prepared.Reaches e
  /-- No list of fields is empty that is entered for a selection set. -/
  groups : ∀ prepared, schema.prepare request = .ok prepared → ∀ objectType selections,
    ∃ visited fields, prepared.scope.Flattens objectType [] selections visited fields ∧
      prepared.scope.Tabulates objectType selections (fields.foldl enterField [])

/-- Executions in a built schema never meet with a fault that the schema would be to blame for. -/
theorem SchemaDraft.execute_spares {draft : SchemaDraft ω σ} {schema : Schema ω σ}
    (h : draft.build = .ok schema) (request : Request ω) (state : σ) :
    draft.Spares schema request state := by
  have hlinked := linked_of_build h
  refine ⟨?_, ?_, ?_, ?_, ?_, ?_⟩
  · intro kind
    rw [Schema.execute_eq_refused_iff, Schema.rejects_undefinedRoot_iff hlinked,
      (yields_of_build h).mutation]
  · intro name reason location hrefused hinternal
    obtain ⟨_, hrejects⟩ := Schema.execute_eq_refused_iff.mp hrefused
    cases hrejects with
    | unselectable h =>
        generalize request.operationName = name? at h
        cases h
    | @misfit operation definition _ hselects _ _ hfirst =>
        obtain ⟨before, after, hsplit, _, hmisfits⟩ := hfirst
        have hmem : definition ∈ operation.variableDefinitions := by simp [hsplit]
        exact ⟨operation, definition, hselects, hmem, rfl, hmisfits.not_input hinternal⟩
  · intro prepared hprepare job fault hjob hmeets
    obtain ⟨operation, root, hp⟩ := schema.exists_of_prepare hprepare
    exact hp.not_internal hlinked hjob hmeets
  · intro prepared hprepare
    obtain ⟨operation, root, hp⟩ := schema.exists_of_prepare hprepare
    exact hp.execute_stemsFrom.1
  · intro response hresponse
    obtain ⟨prepared, _, hprepare, _⟩ := schema.execute_accounts hresponse
    obtain ⟨operation, root, hp⟩ := schema.exists_of_prepare hprepare
    exact ⟨prepared, hprepare, hp.execute_stemsFrom.2 response hresponse⟩
  · intro prepared _ objectType selections
    exact prepared.scope.exists_tabulates objectType selections

/-- Asks for a kind of animals, by a variable of a type that nobody defined. -/
def animalKindRequest : Request Unit where
  document := {
    operations := [{ Operation.plain .query [.plain "animals" []] with
      variableDefinitions := [⟨"kind", .nonNullNamed "Kind", none, none⟩] }]
    fragments := [] }
  variableValues := [("kind", .str "CAT")]
  root := .json []

/-- Animals cannot be changed, as their draft names no type for mutations, and of undefined types there
are only those that a request brings. -/
theorem animalDraft_spares :
    ∃ schema, animalDraft.build = .ok schema ∧ animalDraft.Spares schema animalRequest () ∧
      (schema.execute { animalRequest with document := ⟨[.plain .mutation []], []⟩ } ()).ending =
        .refused (.undefinedRoot .mutation) ∧
      (schema.execute animalKindRequest ()).ending =
        .refused (.invalidVariable "kind" (.undefinedType "Kind") none) := by
  have built : animalDraft.build = .ok ⟨"Query", none, animalDraft.registered,
      SchemaDraft.possibleIndex animalDraft.registered⟩ := rfl
  refine ⟨_, built, SchemaDraft.execute_spares built animalRequest (), ?_, by decide +kernel⟩
  have hspares := SchemaDraft.execute_spares built
    { animalRequest with document := ⟨[.plain .mutation []], []⟩ } ()
  exact (hspares.undefinedRoot_iff .mutation).mpr
    ⟨Nat.one_pos, rfl, rfl, .plain .mutation [], .only rfl, rfl⟩

end GraphQLEngine
