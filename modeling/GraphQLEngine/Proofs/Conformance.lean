/-
Response data conforms to the schema and to the query.

`Scope.Conforms` and `Scope.ObjectConforms` say what data may look like: they
give each object a concrete type, and ask for exactly the entries that the
selections call for on that type, each fit for the type declared there.  The
data of every response are such an object, of the root type
(`execute_conforms`).

Data that are null say nothing here; see Proofs/NullPropagation.
-/
import GraphQLEngine.Proofs.Account
import GraphQLEngine.Proofs.BuiltSchema
import GraphQLEngine.Proofs.Completion

namespace GraphQLEngine

variable {ω σ : Type}

/-! ## Conforming data -/

mutual

/-- A value that fits its declared type, where sub-selections are made on objects. -/
inductive Scope.Conforms (scope : Scope ω σ) : List Selection → TypeRef → Json → Prop
  | null {selections : List Selection} {type : TypeRef} :
      type.isNonNull = false → Scope.Conforms scope selections type .null
  | list {selections : List Selection} {type item : TypeRef} {items : List Json} :
      type.item? = some item → (∀ j ∈ items, Scope.Conforms scope selections item j) →
      Scope.Conforms scope selections type (.arr items)
  /-- What a scalar made of some value, other than null. -/
  | scalar {selections : List Selection} {type : TypeRef} {t : ScalarType} {j k : Json} :
      type.item? = none → scope.schema.type? type.innerName = some (.scalar t) →
      t.serialize j = .ok k → k ≠ .null → BuiltIn.Admits type.innerName k →
      Scope.Conforms scope selections type k
  | enum {selections : List Selection} {type : TypeRef} {t : EnumType} {member : Name} :
      type.item? = none → scope.schema.type? type.innerName = some (.enum t) →
      member ∈ t.values → Scope.Conforms scope selections type (.str member)
  | object {selections : List Selection} {type : TypeRef} {objectType : ObjectType ω σ}
      {entries : JsonObject} :
      type.item? = none → scope.schema.Concrete type.innerName objectType →
      Scope.ObjectConforms scope objectType selections entries →
      Scope.Conforms scope selections type (.obj entries)

/-- An object of a type that has what selections ask for. -/
inductive Scope.ObjectConforms (scope : Scope ω σ) :
    ObjectType ω σ → List Selection → JsonObject → Prop
  | intro {objectType : ObjectType ω σ} {selections : List Selection} {entries : JsonObject} :
      OrderedMap.keys entries =
        objectType.responseKeys (scope.collect objectType.name selections) →
      (∀ group ∈ scope.collect objectType.name selections, ∀ j, (group.key, j) ∈ entries →
        group.first.name = "__typename" → j = .str objectType.name) →
      (∀ group ∈ scope.collect objectType.name selections, ∀ j, (group.key, j) ∈ entries →
        group.first.name ≠ "__typename" → ∀ definition,
          objectType.fields.get? group.first.name = some definition →
          Scope.Conforms scope group.selections definition.type j) →
      Scope.ObjectConforms scope objectType selections entries

end

/-- The value of an account fits a declared type. -/
def Account.Fits (scope : Scope ω σ) (selections : List Selection) (type : TypeRef)
    (account : Account ω σ) : Prop :=
  ∀ j, account.outcome.value = some j → scope.Conforms selections type j

namespace Scope

variable {scope : Scope ω σ} {log : List (Event ω)}

/-- A null that its position took up fits too. -/
theorem Conforms.of_settled {selections : List Selection} {part : Placed ω σ}
    (h : part.account.Fits scope selections part.type) {j : Json} (hj : part.settled.value = some j) :
    scope.Conforms selections part.type j := by
  rcases Outcome.settle_value_some.mp hj with hval | ⟨_, hn, rfl⟩
  · exact h j hval
  · exact .null hn

/-! ## Values of branches -/

/-- The assembled fields of an object conform, if the values of the jobs fit. -/
theorem AccountsAll.objectConforms {site : Site ω σ} {selections : List Selection}
    {parts : List (Placed ω σ)} {values : List (PathSegment × Json)}
    (ha : scope.AccountsAll log (scope.fieldChildren site selections) parts)
    (hv : allValues (Placed.outcomes parts) = some values)
    (ih : ∀ part ∈ parts, ∀ job, scope.Accounts log (.unstarted job) part.account →
      part.account.Fits scope job.selections job.type) :
    scope.ObjectConforms site.objectType selections (values.map (fun v => (v.1.text, v.2))) := by
  have hnodup := scope.nodup_groupKeys_collect site.objectType.name selections
  rw [fieldChildren] at ha
  rw [Placed.outcomes_eq_map] at hv
  generalize hgroups : scope.collect site.objectType.name selections = groups at ha hnodup
  -- An entry for a group comes from the child of the group.
  have entry : ∀ group ∈ groups, ∀ j, (group.key, j) ∈ values.map (fun v => (v.1.text, v.2)) →
      ∃ part ∈ parts, part.settled.value = some j ∧ ∃ task,
        fieldChild site group = .mk part.position task ∧ scope.Accounts log task part.account := by
    intro group hgroup j hj
    obtain ⟨⟨s, k⟩, hmem, heq⟩ := List.mem_map.mp hj
    obtain ⟨o, hmem', ho⟩ := exists_of_mem_allValues hv s k hmem
    obtain ⟨part, hpart, hso⟩ := List.mem_map.mp hmem'
    obtain ⟨task, hchild, htask⟩ := ha.exists_task part hpart
    obtain ⟨group', hgroup', hchild⟩ := List.mem_map.mp hchild
    cases hso
    simp only [Prod.mk.injEq] at heq
    obtain ⟨hkey, rfl⟩ := heq
    have hsame : group' = group := List.inj_on_of_nodup_map hnodup hgroup' hgroup (by
      rw [← hkey, Placed.segment, segment_of_fieldChild hchild]; rfl)
    exact ⟨part, hpart, ho, task, hsame ▸ hchild, htask⟩
  refine .intro ?_ ?_ ?_
  · rw [hgroups, OrderedMap.keys, List.map_map]
    have hsegments := ha.segments
    rw [segments_fieldChildren] at hsegments
    have hfst := (allValues_eq_some hv).1
    rw [List.map_map] at hfst
    have hkeys : values.map Prod.fst = (site.objectType.responseKeys groups).map .key :=
      hfst.trans hsegments
    show values.map (PathSegment.text ∘ Prod.fst) = _
    rw [← List.map_map, hkeys, List.map_map]
    exact List.map_id _
  · intro group hgroup j hj hn
    rw [hgroups] at hgroup
    obtain ⟨⟨position, account⟩, _, hval, task, hchild, htask⟩ := entry group hgroup j hj
    rw [fieldChild_typename hn] at hchild
    cases hchild
    cases htask
    exact (Option.some.inj hval).symm
  · intro group hgroup j hj hn definition hd
    rw [hgroups] at hgroup
    obtain ⟨⟨position, account⟩, hpart, hval, task, hchild, htask⟩ := entry group hgroup j hj
    rw [fieldChild_field hn hd] at hchild
    cases hchild
    exact Conforms.of_settled (ih _ hpart _ htask) hval

/-- The assembled items of a list fit, if the values of the jobs do. -/
theorem AccountsAll.itemsConform {group : FieldGroup} {item : TypeRef} {path : Path}
    {items : List (Except ResolverFailure (Resolved ω))} {parts : List (Placed ω σ)}
    {values : List (PathSegment × Json)}
    (ha : scope.AccountsAll log (itemChildren group item path 0 items) parts)
    (hv : allValues (Placed.outcomes parts) = some values)
    (ih : ∀ part ∈ parts, ∀ job, scope.Accounts log (.unstarted job) part.account →
      part.account.Fits scope job.selections job.type) :
    ∀ j ∈ values.map Prod.snd, scope.Conforms group.selections item j := by
  rw [Placed.outcomes_eq_map] at hv
  intro j hj
  obtain ⟨⟨s, k⟩, hmem, rfl⟩ := List.mem_map.mp hj
  obtain ⟨o, hmem', ho⟩ := exists_of_mem_allValues hv s k hmem
  obtain ⟨part, hpart, hso⟩ := List.mem_map.mp hmem'
  cases hso
  obtain ⟨task, hchild, htask⟩ := ha.exists_task part hpart
  obtain ⟨i, answer, hchild⟩ := exists_of_mem_itemChildren hchild
  obtain ⟨position, account⟩ := part
  cases hchild
  exact Conforms.of_settled (ih _ hpart _ htask) ho

/-! ## Values of accounts -/

theorem fits_failed {selections : List Selection} {type : TypeRef} (error : ResponseError) :
    (Account.failed error : Account ω σ).Fits scope selections type := by
  intro j hj
  cases hj

theorem fits_value {selections : List Selection} {type : TypeRef} {json : Json}
    (h : scope.Conforms selections type json) :
    (Account.value json : Account ω σ).Fits scope selections type := by
  intro j hj
  cases hj
  exact h

/-- The value of an account of an answer fits its type, if those of the jobs below do. -/
theorem Accounts.fits_completed {draft : SchemaDraft ω σ} (hb : draft.build = .ok scope.schema)
    {account : Account ω σ} {group : FieldGroup} {type : TypeRef} {path : Path}
    {answer : Except ResolverFailure (Resolved ω)}
    (jobs : ∀ shape parts, account = .branch shape parts → ∀ part ∈ parts, ∀ job,
      scope.Accounts log (.unstarted job) part.account →
        part.account.Fits scope job.selections job.type)
    (ha : scope.Accounts log (scope.completeAnswer group type path answer) account) :
    account.Fits scope group.selections type := by
  have hc := scope.completes_completeAnswer group type path answer
  generalize scope.completeAnswer group type path answer = task at ha hc
  cases hc with
  | failed fault =>
      cases ha
      exact fits_failed _
  | null hn =>
      cases ha
      exact fits_value (.null hn)
  | @scalar t j k hitem ht hs hn =>
      cases ha
      by_cases hnull : k = .null
      · exact fits_value (hnull ▸ .null (hn hnull))
      · exact fits_value (.scalar hitem ht hs hnull (BuiltIn.admits_of_serialize hb ht hs))
  | @enum t j hitem ht hj =>
      cases ha
      match j, hj with
      | .str member, hj => exact fits_value (.enum hitem ht (by simpa [EnumType.has] using hj))
  | object hitem _ htype =>
      cases ha with
      | branch ha =>
          intro json hjson
          obtain ⟨values, hv, rfl⟩ := Option.map_eq_some_iff.mp hjson
          exact .object hitem (Schema.objectTypeOf_concrete (SchemaDraft.named_of_build hb) htype)
            (ha.objectConforms hv (jobs _ _ rfl))
  | list hitem _ =>
      cases ha with
      | branch ha =>
          intro json hjson
          obtain ⟨values, hv, rfl⟩ := Option.map_eq_some_iff.mp hjson
          exact .list hitem (ha.itemsConform hv (jobs _ _ rfl))

/-- The values of accounts of an answer, and of a job, fit their types. -/
theorem Accounts.fits {draft : SchemaDraft ω σ} (hb : draft.build = .ok scope.schema)
    (account : Account ω σ) :
    (∀ group type path answer,
      scope.Accounts log (scope.completeAnswer group type path answer) account →
        account.Fits scope group.selections type) ∧
    ∀ job, scope.Accounts log (.unstarted job) account →
      account.Fits scope job.selections job.type := by
  induction account with
  | value json =>
      constructor
      · intro group type path answer ha
        exact ha.fits_completed hb fun _ _ heq => by cases heq
      · intro job ha
        cases ha
  | failed error => exact ⟨fun _ _ _ _ _ => fits_failed error, fun _ _ => fits_failed error⟩
  | answered answer account ih =>
      constructor
      · intro group type path answer' ha
        exact ha.fits_completed hb fun _ _ heq => by cases heq
      · intro job ha
        cases ha with
        | item ha => exact ih.1 _ _ _ _ ha
        | field _ _ ha => exact ih.1 _ _ _ _ ha
  | branch shape parts ih =>
      constructor
      · intro group type path answer ha
        refine ha.fits_completed hb ?_
        intro shape' parts' heq part hpart
        cases heq
        exact (ih part hpart).2
      · intro job ha
        cases ha

/-! ## Data of responses -/

/-- If no field of a mutation passes a null on, all of them were worked on. -/
theorem AccountsInOrder.accountsAll {children : List (Child ω σ)} {parts : List (Placed ω σ)}
    (ha : scope.AccountsInOrder log children parts) (h : ∀ part ∈ parts, part.settled.value ≠ none) :
    scope.AccountsAll log children parts := by
  induction ha with
  | nil => exact .nil
  | absent _ ih => exact .absent (ih h)
  | stop _ hn => exact absurd hn (h _ List.mem_cons_self)
  | next htask _ _ ih =>
      refine .cons htask (ih ?_)
      intro part hpart
      exact h part (List.mem_cons_of_mem _ hpart)

theorem settled_of_allValues {parts : List (Placed ω σ)} {values : List (PathSegment × Json)}
    (h : allValues (Placed.outcomes parts) = some values) :
    ∀ part ∈ parts, part.settled.value ≠ none := by
  intro part hpart hnone
  rw [Placed.outcomes_eq_map] at h
  obtain ⟨j, hj, _⟩ := (allValues_eq_some h).2 _ _ (List.mem_map_of_mem hpart)
  rw [hnone] at hj
  cases hj

/-- An account of an operation that has a value is a branch, with all fields. -/
theorem WorkAccounts.exists_all {kind : OperationKind} {site : Site ω σ}
    {selections : List Selection} {account : Account ω σ} {json : Json}
    (ha : scope.WorkAccounts log (scope.operationWork kind site selections) account)
    (hv : account.outcome.value = some json) :
    ∃ parts values, scope.AccountsAll log (scope.fieldChildren site selections) parts ∧
      allValues (Placed.outcomes parts) = some values ∧
      json = .obj (values.map (fun v => (v.1.text, v.2))) := by
  have query : scope.WorkAccounts log (.query (scope.objectTask site selections)) account →
      ∃ parts, account = .branch (.object site) parts ∧
        scope.AccountsAll log (scope.fieldChildren site selections) parts := by
    intro hquery
    cases hquery with
    | query htask =>
        cases htask with
        | branch hparts => exact ⟨_, rfl, hparts⟩
  have value : ∀ {parts}, account = .branch (.object site) parts →
      ∃ values, allValues (Placed.outcomes parts) = some values ∧
        json = .obj (values.map (fun v => (v.1.text, v.2))) := by
    rintro parts rfl
    simp only [Account.outcome, Shape.join, Option.map_eq_some_iff] at hv
    obtain ⟨values, hvalues, rfl⟩ := hv
    exact ⟨values, hvalues, rfl⟩
  cases kind with
  | query | subscription =>
      obtain ⟨parts, heq, hparts⟩ := query ha
      obtain ⟨values, hvalues, hjson⟩ := value heq
      exact ⟨parts, values, hparts, hvalues, hjson⟩
  | mutation =>
      cases ha with
      | mutation hparts =>
          obtain ⟨values, hvalues, hjson⟩ := value rfl
          exact ⟨_, values, hparts.accountsAll (settled_of_allValues hvalues), hvalues, hjson⟩

end Scope

/-- The data of a response are an object of the root type that has what the operation selects. -/
theorem Schema.execute_conforms {draft : SchemaDraft ω σ} {schema : Schema ω σ}
    (hb : draft.build = .ok schema) {request : Request ω} {state : σ} {response : Response}
    {data : JsonObject} (h : (schema.execute request state).ending = .responded response)
    (hdata : response.data = some data) :
    ∃ operation root prepared, schema.Prepares request operation root prepared ∧
      prepared.scope.ObjectConforms root operation.selections data := by
  obtain ⟨prepared, account, hprepare, ha, rfl⟩ := schema.execute_accounts h
  obtain ⟨operation, root, hp⟩ := schema.exists_of_prepare hprepare
  refine ⟨operation, root, prepared, hp, ?_⟩
  have hschema : draft.build = .ok prepared.scope.schema := by rw [hp.scope_eq]; exact hb
  obtain ⟨json, hv, hobj⟩ := Option.bind_eq_some_iff.mp hdata
  rw [hp.start_eq] at ha
  obtain ⟨parts, values, hparts, hvalues, rfl⟩ := ha.exists_all hv
  cases hobj
  exact hparts.objectConforms hvalues fun part _ job hjob =>
    (Scope.Accounts.fits hschema part.account).2 job hjob

/-- Animals of two kinds, which are told apart by what JSON data say. -/
def animalDraft : SchemaDraft Unit Unit where
  query := some "Query"
  types := [
    .object (ObjectType.addField { name := "Query" } { name := "animals", type := .list (.named "Animal") }),
    .interface (InterfaceType.addField { name := "Animal" } { name := "name", type := .nonNullNamed "String" }),
    .object (ObjectType.addField
      (ObjectType.addField { name := "Dog", interfaces := ["Animal"] }
        { name := "name", type := .nonNullNamed "String" })
      { name := "size", type := .named "Size" }),
    .object (ObjectType.addField { name := "Cat", interfaces := ["Animal"] }
      { name := "name", type := .nonNullNamed "String" }),
    .enum { name := "Size", values := ["SMALL", "LARGE"] }]

/-- Asks for three animals, of which the last has no type, and for the sizes of the dogs. -/
def animalRequest : Request Unit where
  document := ⟨[.plain .query [.plain "animals" [.plain "__typename" [], .plain "size" [],
    .plain "name" [], .plain "lives" []]]], []⟩
  root := .json [("animals", .arr [
    .obj [("__typename", .str "Dog"), ("name", .str "Rex"), ("size", .str "LARGE")],
    .obj [("__typename", .str "Cat"), ("name", .str "Tom")], .obj []])]
  depth := 2
  rounds := 1

theorem animalRequest_conforms :
    ∃ schema, animalDraft.build = .ok schema ∧ ∃ response,
      (schema.execute animalRequest ()).ending = .responded response ∧
      response.data = some [("animals", .arr [
        .obj [("__typename", .str "Dog"), ("size", .str "LARGE"), ("name", .str "Rex")],
        .obj [("__typename", .str "Cat"), ("name", .str "Tom")], .null])] ∧
      ∃ operation root prepared, schema.Prepares animalRequest operation root prepared ∧
        prepared.scope.ObjectConforms root operation.selections [("animals", .arr [
          .obj [("__typename", .str "Dog"), ("size", .str "LARGE"), ("name", .str "Rex")],
          .obj [("__typename", .str "Cat"), ("name", .str "Tom")], .null])] :=
  have built : animalDraft.build = .ok ⟨"Query", none, animalDraft.registered,
      SchemaDraft.possibleIndex animalDraft.registered⟩ := rfl
  have run : (Schema.execute ⟨"Query", none, animalDraft.registered,
      SchemaDraft.possibleIndex animalDraft.registered⟩ animalRequest ()).ending = .responded
        ⟨[⟨"could not determine the object type for abstract type Animal: no possible type matches the value",
            [], [.key "animals", .index 2], []⟩],
          some [("animals", .arr [
            .obj [("__typename", .str "Dog"), ("size", .str "LARGE"), ("name", .str "Rex")],
            .obj [("__typename", .str "Cat"), ("name", .str "Tom")], .null])]⟩ := by decide +kernel
  ⟨_, built, _, run, rfl, Schema.execute_conforms built run rfl⟩

end GraphQLEngine
