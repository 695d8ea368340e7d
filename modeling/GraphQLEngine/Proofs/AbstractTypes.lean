/-
The object type of a value of an abstract type.

`Schema.Resolves` says, without running through candidates, which possible type a value
has: the one that the type resolver names; without a type resolver, the only one whose
test accepts the value; and if no test accepts it, the one that JSON data name.  There is
at most one such type, and it is what is found.  Where there is none the fault names the
reason (`Schema.Ambiguous`), so nothing that is found is outside the possible types, and
the abstract type itself never is (`Schema.decidesTypes`).

Each object that a run ever has at a place was found for its value there
(`Task.Typed`).  What is asked for on the object afterwards is not said here.
-/
import GraphQLEngine.Proofs.ErrorSources
import GraphQLEngine.Proofs.PossibleTypes

namespace GraphQLEngine

variable {ω σ : Type}

/-- The test of an object type accepts a value. -/
def ObjectType.Accepts (t : ObjectType ω σ) (value : ObjectValue ω) : Prop :=
  ∃ test, t.isTypeOf? = some test ∧ test value = true

/-- A value is JSON data that name their type. -/
def ObjectValue.Names (value : ObjectValue ω) (name : Name) : Prop :=
  ∃ entries, value = .json entries ∧ OrderedMap.get? entries "__typename" = some (.str name)

theorem ObjectValue.Names.unique {value : ObjectValue ω} {name name' : Name} (h : value.Names name)
    (h' : value.Names name') : name = name' := by
  obtain ⟨entries, rfl, hname⟩ := h
  obtain ⟨_, heq, hname'⟩ := h'
  cases heq
  rw [hname] at hname'
  cases hname'
  rfl

namespace Schema

/-! ## Deciding types -/

/-- An object type that values of an abstract type can have. -/
structure IsPossible (schema : Schema ω σ) (abstractType : Name) (t : ObjectType ω σ) : Prop where
  listed : t.name ∈ schema.possibleTypes abstractType
  registered : schema.object? t.name = some t

/-- No test of a possible type accepts a value. -/
def NoneAccepts (schema : Schema ω σ) (abstractType : Name) (value : ObjectValue ω) : Prop :=
  ∀ t, schema.IsPossible abstractType t → ¬ t.Accepts value

/-- The possible type that a value has, by the first source that can tell. -/
inductive Resolves (schema : Schema ω σ) (abstractType : Name) (value : ObjectValue ω) :
    Option (ObjectValue ω → Option Name) → ObjectType ω σ → Prop
  | resolver {resolveType : ObjectValue ω → Option Name} {t : ObjectType ω σ} :
      schema.IsPossible abstractType t → resolveType value = some t.name →
      Resolves schema abstractType value (some resolveType) t
  | test {t : ObjectType ω σ} :
      schema.IsPossible abstractType t → t.Accepts value →
      (∀ other, schema.IsPossible abstractType other → other.Accepts value → other = t) →
      Resolves schema abstractType value none t
  | typename {t : ObjectType ω σ} :
      schema.IsPossible abstractType t → schema.NoneAccepts abstractType value → value.Names t.name →
      Resolves schema abstractType value none t

/-- Why a value has none of the possible types. -/
inductive Ambiguous (schema : Schema ω σ) (abstractType : Name) (value : ObjectValue ω) :
    Option (ObjectValue ω → Option Name) → TypeResolutionError → Prop
  | noTypeNamed {resolveType : ObjectValue ω → Option Name} : resolveType value = none →
      Ambiguous schema abstractType value (some resolveType) .noTypeNamed
  | misnamed {resolveType : ObjectValue ω → Option Name} {name : Name} :
      resolveType value = some name → name ∉ schema.possibleTypes abstractType →
      Ambiguous schema abstractType value (some resolveType) (.notPossible name abstractType)
  | severalMatch {first second : ObjectType ω σ} :
      schema.IsPossible abstractType first → schema.IsPossible abstractType second →
      first ≠ second → first.Accepts value → second.Accepts value →
      Ambiguous schema abstractType value none (.severalMatch first.name second.name)
  | noneMatches : schema.NoneAccepts abstractType value → (∀ name, ¬ value.Names name) →
      Ambiguous schema abstractType value none .noneMatches
  | mistyped {name : Name} : schema.NoneAccepts abstractType value → value.Names name →
      name ∉ schema.possibleTypes abstractType →
      Ambiguous schema abstractType value none (.notPossible name abstractType)

variable {draft : SchemaDraft ω σ} {schema : Schema ω σ} {abstractType : Name} {value : ObjectValue ω}
  {resolveType? : Option (ObjectValue ω → Option Name)} {t u : ObjectType ω σ}

theorem IsPossible.eq_of_name (ht : schema.IsPossible abstractType t)
    (hu : schema.IsPossible abstractType u) (h : t.name = u.name) : t = u := by
  have hregistered := ht.registered
  rw [h, hu.registered] at hregistered
  exact (Option.some.inj hregistered).symm

theorem Resolves.isPossible (h : schema.Resolves abstractType value resolveType? t) :
    schema.IsPossible abstractType t := by
  cases h with
  | resolver hpossible _ => exact hpossible
  | test hpossible _ _ => exact hpossible
  | typename hpossible _ _ => exact hpossible

/-- A value has one type at most. -/
theorem Resolves.unique (ht : schema.Resolves abstractType value resolveType? t)
    (hu : schema.Resolves abstractType value resolveType? u) : t = u := by
  cases ht with
  | resolver hpossible hname =>
      cases hu with
      | resolver hpossible' hname' =>
          exact hpossible.eq_of_name hpossible' (Option.some.inj (hname.symm.trans hname'))
  | test hpossible haccepts honly =>
      cases hu with
      | test hpossible' haccepts' _ => exact (honly u hpossible' haccepts').symm
      | typename _ hnone _ => exact absurd haccepts (hnone t hpossible)
  | typename hpossible hnone hnames =>
      cases hu with
      | test hpossible' haccepts' _ => exact absurd haccepts' (hnone u hpossible')
      | typename hpossible' _ hnames' => exact hpossible.eq_of_name hpossible' (hnames.unique hnames')

/-- A value that has a type is not ambiguous. -/
theorem Resolves.not_ambiguous (ht : schema.Resolves abstractType value resolveType? t)
    (reason : TypeResolutionError) : ¬ schema.Ambiguous abstractType value resolveType? reason := by
  intro hreason
  cases ht with
  | resolver hpossible hname =>
      cases hreason with
      | noTypeNamed hnone => cases hname.symm.trans hnone
      | misnamed hname' hunlisted =>
          obtain rfl := Option.some.inj (hname.symm.trans hname')
          exact hunlisted hpossible.listed
  | test hpossible haccepts honly =>
      cases hreason with
      | severalMatch hfirst hsecond hne hfirst' hsecond' =>
          exact hne ((honly _ hfirst hfirst').trans (honly _ hsecond hsecond').symm)
      | noneMatches hnone _ => exact hnone t hpossible haccepts
      | mistyped hnone _ _ => exact hnone t hpossible haccepts
  | typename hpossible hnone hnames =>
      cases hreason with
      | severalMatch hfirst _ _ hfirst' _ => exact hnone _ hfirst hfirst'
      | noneMatches _ hnameless => exact hnameless _ hnames
      | mistyped _ hnames' hunlisted => exact hunlisted (hnames'.unique hnames ▸ hpossible.listed)

/-! ## Candidates -/

theorem accepts_iff : (t.isTypeOf?.map (fun test => test value)) == some true ↔ t.Accepts value := by
  rw [beq_iff_eq, Option.map_eq_some_iff]
  rfl

/-- What matches a value are the possible types whose tests accept it. -/
theorem mem_matching (hb : draft.build = .ok schema) :
    t ∈ schema.matching abstractType value ↔ schema.IsPossible abstractType t ∧ t.Accepts value := by
  rw [matching, List.mem_filter, List.mem_filterMap, accepts_iff]
  refine and_congr_left fun _ => ?_
  constructor
  · rintro ⟨name, hlisted, hregistered⟩
    obtain ⟨rfl, hself⟩ := object?_name (SchemaDraft.named_of_build hb) hregistered
    exact ⟨hlisted, hself⟩
  · exact fun h => ⟨t.name, h.listed, h.registered⟩

/-- No type matches twice. -/
theorem nodup_matching (hb : draft.build = .ok schema) (h : schema.object? abstractType = none)
    (value : ObjectValue ω) :
    (schema.matching abstractType value).Nodup := by
  refine ((nodup_possibleTypes hb h).filterMap ?_).filter _
  intro name name' t hname hname'
  have hnamed := SchemaDraft.named_of_build hb
  exact (object?_name hnamed hname).1.symm.trans (object?_name hnamed hname').1

theorem typenameOf?_eq_some_iff {name : Name} : typenameOf? value = some name ↔ value.Names name := by
  cases value with
  | host _ =>
      refine ⟨fun h => ?_, fun ⟨_, heq, _⟩ => ?_⟩
      · cases h
      · cases heq
  | json entries =>
      have hread : typenameOf? (.json entries : ObjectValue ω) =
          (OrderedMap.get? entries "__typename").bind Json.asString? := rfl
      rw [hread, Option.bind_eq_some_iff]
      constructor
      · rintro ⟨j, hj, hname⟩
        cases j with
        | str s =>
            cases hname
            exact ⟨entries, rfl, hj⟩
        | null | bool _ | int _ | float _ | arr _ | obj _ => cases hname
      · rintro ⟨_, heq, hj⟩
        cases heq
        exact ⟨_, hj, rfl⟩

/-- A name is that of a possible type, or is refused; the abstract type itself is refused too. -/
theorem possibleObject_cases (hb : draft.build = .ok schema) (h : schema.object? abstractType = none)
    (name : Name) :
    (∃ t, schema.possibleObject abstractType name = .ok t ∧ schema.IsPossible abstractType t ∧
      t.name = name) ∨
    schema.possibleObject abstractType name = .error (.notPossible name abstractType) ∧
      name ∉ schema.possibleTypes abstractType := by
  have hlisted := possibleTypes_eq h
  by_cases hname : name ∈ schema.possibleTypes abstractType
  · obtain ⟨t, ht⟩ := SchemaDraft.possible_of_build hb abstractType name (hlisted ▸ hname)
    obtain ⟨rfl, hself⟩ := object?_name (SchemaDraft.named_of_build hb) ht
    have hne : t.name ≠ abstractType := by
      rintro rfl
      cases h.symm.trans hself
    refine .inl ⟨t, ?_, ⟨hname, hself⟩, rfl⟩
    rw [hlisted] at hname
    simp [possibleObject, isSubtype, hname, hne, hself]
  · refine .inr ⟨?_, hname⟩
    rw [hlisted] at hname
    have hrefused : (!schema.isSubtype abstractType name || name == abstractType) = true := by
      by_cases hself : name = abstractType
      · simp [hself]
      · simp [isSubtype, hname, Ne.symm hself]
    rw [possibleObject, if_pos hrefused]

/-! ## What is found -/

/-- A value has the type that is found for it, and is ambiguous if none is. -/
theorem resolveAbstract_cases (hb : draft.build = .ok schema)
    (h : schema.object? abstractType = none) (value : ObjectValue ω) :
    ∀ resolveType? : Option (ObjectValue ω → Option Name),
      (∃ t, schema.resolveAbstract abstractType resolveType? value = .ok t ∧
        schema.Resolves abstractType value resolveType? t) ∨
      ∃ reason, schema.resolveAbstract abstractType resolveType? value = .error reason ∧
        schema.Ambiguous abstractType value resolveType? reason
  | some resolveType => by
      rw [resolveAbstract]
      cases hname : resolveType value with
      | none => exact .inr ⟨_, rfl, .noTypeNamed hname⟩
      | some name =>
          rcases possibleObject_cases hb h name with ⟨t, hok, hpossible, rfl⟩ | ⟨herror, hunlisted⟩
          · exact .inl ⟨t, hok, .resolver hpossible hname⟩
          · exact .inr ⟨_, herror, .misnamed hname hunlisted⟩
  | none => by
      have hmem : ∀ t, t ∈ schema.matching abstractType value ↔
          schema.IsPossible abstractType t ∧ t.Accepts value := fun _ => mem_matching hb
      have hnodup := nodup_matching hb h value
      rw [resolveAbstract]
      match hmatching : schema.matching abstractType value with
      | [t] =>
          simp only [hmatching, List.mem_singleton] at hmem
          obtain ⟨hpossible, haccepts⟩ := (hmem t).mp rfl
          exact .inl ⟨t, rfl, .test hpossible haccepts fun u hu hu' => (hmem u).mpr ⟨hu, hu'⟩⟩
      | first :: second :: rest =>
          rw [hmatching] at hmem hnodup
          obtain ⟨hfirst, hfirst'⟩ := (hmem first).mp List.mem_cons_self
          obtain ⟨hsecond, hsecond'⟩ := (hmem second).mp (List.mem_cons_of_mem _ List.mem_cons_self)
          have hne : first ≠ second := fun heq =>
            (List.nodup_cons.mp hnodup).1 (heq ▸ List.mem_cons_self)
          exact .inr ⟨_, rfl, .severalMatch hfirst hsecond hne hfirst' hsecond'⟩
      | [] =>
          have hnone : schema.NoneAccepts abstractType value := by
            intro t hpossible haccepts
            have hmatches := (hmem t).mpr ⟨hpossible, haccepts⟩
            rw [hmatching] at hmatches
            cases hmatches
          cases hname : typenameOf? value with
          | none =>
              refine .inr ⟨_, rfl, .noneMatches hnone fun name hnames => ?_⟩
              cases hname.symm.trans (typenameOf?_eq_some_iff.mpr hnames)
          | some name =>
              have hnames := typenameOf?_eq_some_iff.mp hname
              rcases possibleObject_cases hb h name with ⟨t, hok, hpossible, rfl⟩ | ⟨herror, hunlisted⟩
              · exact .inl ⟨t, hok, .typename hpossible hnone hnames⟩
              · exact .inr ⟨_, herror, .mistyped hnone hnames hunlisted⟩

theorem Abstract.objectTypeOf_eq (h : schema.Abstract abstractType resolveType?) (value : ObjectValue ω) :
    schema.objectTypeOf abstractType value =
      (schema.resolveAbstract abstractType resolveType? value).mapError (.ambiguousType abstractType) := by
  cases h with
  | interface htype => simp only [objectTypeOf, htype]
  | union htype => simp only [objectTypeOf, htype]

theorem Abstract.objectTypeOf_cases (hb : draft.build = .ok schema)
    (h : schema.Abstract abstractType resolveType?) (value : ObjectValue ω) :
    (∃ t, schema.objectTypeOf abstractType value = .ok t ∧
      schema.Resolves abstractType value resolveType? t) ∨
    ∃ reason, schema.objectTypeOf abstractType value = .error (.ambiguousType abstractType reason) ∧
      schema.Ambiguous abstractType value resolveType? reason := by
  rw [h.objectTypeOf_eq]
  rcases resolveAbstract_cases hb h.object?_eq_none value resolveType? with
    ⟨t, hok, hresolves⟩ | ⟨reason, herror, hambiguous⟩
  · exact .inl ⟨t, by rw [hok]; rfl, hresolves⟩
  · exact .inr ⟨reason, by rw [herror]; rfl, hambiguous⟩

/-- What is found is the type that the value has. -/
theorem Abstract.objectTypeOf_eq_ok_iff (hb : draft.build = .ok schema)
    (h : schema.Abstract abstractType resolveType?) :
    schema.objectTypeOf abstractType value = .ok t ↔ schema.Resolves abstractType value resolveType? t := by
  rcases h.objectTypeOf_cases hb value with ⟨u, hok, hresolves⟩ | ⟨reason, herror, hambiguous⟩
  · rw [hok, Except.ok.injEq]
    exact ⟨fun heq => heq ▸ hresolves, hresolves.unique⟩
  · rw [herror]
    refine ⟨fun heq => ?_, fun ht => absurd hambiguous (ht.not_ambiguous reason)⟩
    cases heq

end Schema

/-! ## Objects of a run -/

/-- A task that has objects only of the types that were found for their values.  The declared type of its
place is given, unless it is the place of the operation. -/
inductive Task.Typed (schema : Schema ω σ) : Option TypeRef → Task ω σ → Prop
  | value (declared? : Option TypeRef) (json : Json) : Typed schema declared? (.value json)
  | failed (declared? : Option TypeRef) (error : ResponseError) : Typed schema declared? (.failed error)
  | unstarted {type : TypeRef} {job : Job ω σ} : job.type = type → Typed schema (some type) (.unstarted job)
  | waiting {type : TypeRef} {call : Call ω σ} (rounds : Nat) : call.type = type →
      Typed schema (some type) (.waiting rounds call)
  | object {declared? : Option TypeRef} {site : Site ω σ} {turns : Turns} {children : List (Child ω σ)} :
      (∀ type ∈ declared?, schema.objectTypeOf type.innerName site.value = .ok site.objectType) →
      (∀ position t, .mk position t ∈ children → Typed schema (some position.type) t) →
      Typed schema declared? (.branch (.object site) turns children)
  | list {declared? : Option TypeRef} {turns : Turns} {children : List (Child ω σ)} :
      (∀ position t, .mk position t ∈ children → Typed schema (some position.type) t) →
      Typed schema declared? (.branch .list turns children)

/-- Work on an operation that has objects only of the types that were found for their values. -/
inductive Work.Typed (schema : Schema ω σ) : Work ω σ → Prop
  | query {t : Task ω σ} : t.Typed schema none → Typed schema (.query t)
  | mutation {site : Site ω σ} {fields : List (Child ω σ)} :
      (∀ position t, .mk position t ∈ fields → t.Typed schema (some position.type)) →
      Typed schema (.mutation site fields)

/-- At or below a child stands an object where a type is declared. -/
inductive Child.HasObject (type : TypeRef) (site : Site ω σ) : Child ω σ → Prop
  | here {segment : PathSegment} {turns : Turns} {children : List (Child ω σ)} :
      HasObject type site (.mk ⟨segment, type⟩ (.branch (.object site) turns children))
  | deeper {position : Position} {shape : Shape ω σ} {turns : Turns} {children : List (Child ω σ)}
      {child : Child ω σ} : child ∈ children → HasObject type site child →
      HasObject type site (.mk position (.branch shape turns children))

/-- Work on an operation has an object where a type is declared. -/
inductive Work.HasObject (type : TypeRef) (site : Site ω σ) : Work ω σ → Prop
  | query {shape : Shape ω σ} {turns : Turns} {children : List (Child ω σ)} {child : Child ω σ} :
      child ∈ children → child.HasObject type site →
      HasObject type site (.query (.branch shape turns children))
  | mutation {root : Site ω σ} {fields : List (Child ω σ)} {child : Child ω σ} :
      child ∈ fields → child.HasObject type site → HasObject type site (.mutation root fields)

section Typed

variable {schema : Schema ω σ} {type : TypeRef} {site : Site ω σ}

theorem Task.Typed.children {declared? : Option TypeRef} {shape : Shape ω σ} {turns : Turns}
    {children : List (Child ω σ)} (h : (Task.branch shape turns children).Typed schema declared?) :
    ∀ position t, .mk position t ∈ children → t.Typed schema (some position.type) := by
  cases h with
  | object _ hchildren => exact hchildren
  | list hchildren => exact hchildren

theorem Child.HasObject.objectTypeOf {child : Child ω σ} (h : child.HasObject type site) :
    (∀ position t, child = .mk position t → t.Typed schema (some position.type)) →
    schema.objectTypeOf type.innerName site.value = .ok site.objectType := by
  induction h with
  | here =>
      intro htyped
      cases htyped _ _ rfl with
      | object hfound _ => exact hfound type rfl
  | deeper hmem _ ih =>
      intro htyped
      refine ih ?_
      rintro position t rfl
      exact (htyped _ _ rfl).children position t hmem

theorem Work.HasObject.objectTypeOf {work : Work ω σ} (h : work.HasObject type site)
    (htyped : work.Typed schema) :
    schema.objectTypeOf type.innerName site.value = .ok site.objectType := by
  cases h with
  | query hmem h =>
      cases htyped with
      | query htyped =>
          refine h.objectTypeOf ?_
          rintro position t rfl
          exact htyped.children position t hmem
  | mutation hmem h =>
      cases htyped with
      | mutation htyped =>
          refine h.objectTypeOf ?_
          rintro position t rfl
          exact htyped position t hmem

/-! ## Steps -/

/-- What a branch begins with has no objects yet. -/
theorem Child.Fresh.typed {path : Path} {position : Position} {t : Task ω σ}
    (h : (Child.mk position t).Fresh path) : t.Typed schema (some position.type) := by
  cases h with
  | typename key name => exact .value _ _
  | job _ => exact .unstarted rfl

namespace Scope

variable {scope : Scope ω σ}

theorem typed_completeAnswer (scope : Scope ω σ) (group : FieldGroup) (type : TypeRef) (path : Path)
    (answer : Except ResolverFailure (Resolved ω)) :
    (scope.completeAnswer group type path answer).Typed scope.schema (some type) := by
  have hcompletes := scope.completes_completeAnswer group type path answer
  generalize scope.completeAnswer group type path answer = task at hcompletes
  cases hcompletes with
  | failed fault => exact .failed _ _
  | null _ => exact .value _ _
  | scalar _ _ _ _ => exact .value _ _
  | enum _ _ _ => exact .value _ _
  | object _ _ hfound =>
      refine .object ?_ fun position t hmem => (scope.fresh_fieldChildren _ _ _ hmem).typed
      rintro _ ⟨⟩
      exact hfound
  | list _ _ => exact .list fun position t hmem => (fresh_itemChildren _ _ _ _ _ hmem).typed

/-- Nothing that can happen to a task adds an object of another type than was found for its value. -/
theorem roundRel_typed (scope : Scope ω σ) (log : List (Event ω)) :
    scope.RoundRel log
      (fun _ t t' => ∀ declared?, t.Typed scope.schema declared? → t'.Typed scope.schema declared?) where
  refl _ _ := id
  trans _ _ _ hab hbc declared? := hbc declared? ∘ hab declared?
  begun h := by
    intro declared? htyped
    cases htyped with
    | unstarted htype =>
        subst htype
        cases h with
        | item group type path answer => exact scope.typed_completeAnswer group type path answer
        | refused _ => exact .failed _ _
        | answered _ _ => exact scope.typed_completeAnswer _ _ _ _
        | waiting _ _ _ => exact .waiting _ rfl
  waited := by
    intro _ _ _ declared? htyped
    cases htyped with
    | waiting _ htype => exact .waiting _ htype
  resumed h := by
    intro declared? htyped
    obtain ⟨answer, _, rfl⟩ := h
    cases htyped with
    | waiting _ htype => exact htype ▸ scope.typed_completeAnswer _ _ _ answer
  branched {_ _ _ _ children children'} h _ := by
    intro declared? htyped
    have hchildren : ∀ position t', .mk position t' ∈ children' →
        t'.Typed scope.schema (some position.type) := by
      intro position t' hmem'
      obtain ⟨t, hmem, ht⟩ := Child.exists_mk_of_forall₂_right h hmem'
      exact ht _ (htyped.children position t hmem)
    cases htyped with
    | object hfound _ => exact .object hfound hchildren
    | list _ => exact .list hchildren

theorem ensures_workRound_typed (scope : Scope ω σ) (log : List (Event ω)) (levels : Nat)
    {work : Work ω σ} (h : work.Typed scope.schema) :
    (scope.workRound levels work).Ensures log (Work.Typed scope.schema) := by
  have hround := (scope.roundRel_typed log).round
  cases h with
  | @query t h =>
      refine (hround (levels + 1) t).bind ?_
      intro t' ht
      exact Action.ensures_pure (.query (ht none h))
  | @mutation site fields h =>
      refine (Child.ensures_stepSerial (hround levels) fields).bind ?_
      intro fields' hfields
      refine Action.ensures_pure (.mutation ?_)
      intro position t' hmem'
      obtain ⟨t, hmem, ht⟩ := hfields.exists_mk (fun _ _ => id) hmem'
      exact ht _ (h position t hmem)

end Scope

end Typed

/-! ## Runs -/

namespace Schema

variable {schema : Schema ω σ} {request : Request ω} {operation : Operation} {root : ObjectType ω σ}
  {prepared : Prepared ω σ}

theorem Prepares.typed_start (hp : schema.Prepares request operation root prepared) :
    prepared.start.Typed prepared.scope.schema := by
  rw [hp.start_eq]
  generalize (⟨root, request.root, []⟩ : Site ω σ) = site
  have fresh : ∀ position t, .mk position t ∈ prepared.scope.fieldChildren site operation.selections →
      t.Typed prepared.scope.schema (some position.type) :=
    fun position t hmem => (prepared.scope.fresh_fieldChildren _ _ _ hmem).typed
  cases operation.kind with
  | mutation => exact .mutation fresh
  | query | subscription => exact .query (.object (fun _ h => by cases h) fresh)

/-- Whatever a run leaves, its objects are of the types that were found for their values. -/
theorem execute_typed (schema : Schema ω σ) (request : Request ω) (state : σ) {work : Work ω σ}
    (h : (schema.execute request state).work = some work) : work.Typed schema := by
  cases hrounds : request.rounds with
  | zero => simp [execute, hrounds] at h
  | succ limit =>
      cases hprepare : schema.prepare request with
      | error _ => simp [execute, hrounds, hprepare] at h
      | ok prepared =>
          rw [execute, hrounds, hprepare] at h
          obtain ⟨operation, root, hp⟩ := schema.exists_of_prepare hprepare
          have hschema : prepared.scope.schema = schema := by rw [hp.scope_eq]
          obtain ⟨work', hwork', htyped⟩ := prepared.runOn_keeps
            (fun log _ => prepared.scope.ensures_workRound_typed log prepared.levels) (limit + 1) state
            hp.typed_start
          obtain rfl := Option.some.inj (hwork'.symm.trans h)
          exact hschema ▸ htyped

/-- How the values of an abstract type are told apart: what is found for a value is the type that it has,
everything else is a fault, and objects at places of the type have a possible type at any time. -/
structure DecidesTypes (schema : Schema ω σ) (abstractType : Name)
    (resolveType? : Option (ObjectValue ω → Option Name)) : Prop where
  found : ∀ value t, schema.objectTypeOf abstractType value = .ok t ↔
    schema.Resolves abstractType value resolveType? t
  ambiguous : ∀ value, (∀ t, ¬ schema.Resolves abstractType value resolveType? t) →
    ∃ reason, schema.objectTypeOf abstractType value = .error (.ambiguousType abstractType reason) ∧
      schema.Ambiguous abstractType value resolveType? reason
  irreflexive : abstractType ∉ schema.possibleTypes abstractType
  executed : ∀ (request : Request ω) (state : σ) (work : Work ω σ),
    (schema.execute request state).work = some work →
    ∀ type site, type.innerName = abstractType → work.HasObject type site →
      site.objectType.name ∈ schema.possibleTypes abstractType ∧
        schema.Resolves abstractType site.value resolveType? site.objectType

/-- In a built schema, one rule decides the object types of an interface or a union. -/
theorem decidesTypes {draft : SchemaDraft ω σ} (hb : draft.build = .ok schema) {abstractType : Name}
    {resolveType? : Option (ObjectValue ω → Option Name)}
    (h : schema.Abstract abstractType resolveType?) : schema.DecidesTypes abstractType resolveType? where
  found _ _ := h.objectTypeOf_eq_ok_iff hb
  ambiguous := by
    intro value hnone
    rcases h.objectTypeOf_cases hb value with ⟨t, _, hresolves⟩ | hambiguous
    · exact absurd hresolves (hnone t)
    · exact hambiguous
  irreflexive := by
    rw [possibleTypes_eq h.object?_eq_none]
    intro hself
    obtain ⟨t, ht⟩ := SchemaDraft.possible_of_build hb abstractType abstractType hself
    cases h.object?_eq_none.symm.trans ht
  executed := by
    rintro request state work hwork type site rfl hobject
    have hfound := hobject.objectTypeOf (schema.execute_typed request state hwork)
    have hresolves := (h.objectTypeOf_eq_ok_iff hb).mp hfound
    exact ⟨hresolves.isPossible.listed, hresolves⟩

end Schema

/-! ## Pets by weight -/

def dogType : ObjectType Nat Unit where
  name := "Dog"
  interfaces := ["Pet"]
  fields := [("name", { name := "name", type := .named "String" })]
  isTypeOf? := some fun
    | .host weight => 10 < weight
    | .json _ => false

def catType : ObjectType Nat Unit where
  name := "Cat"
  interfaces := ["Pet"]
  fields := [("name", { name := "name", type := .named "String" })]
  isTypeOf? := some fun
    | .host weight => weight < 20
    | .json _ => false

/-- Pets of two kinds, of which some weigh alike. -/
def petDraft : SchemaDraft Nat Unit where
  query := some "Query"
  types := [
    .object { name := "Query", fields := [("pet", { name := "pet", type := .named "Pet" })] },
    .interface { name := "Pet", fields := [("name", { name := "name", type := .named "String" })] },
    .object dogType, .object catType]

def petSchema : Schema Nat Unit where
  queryType := "Query"
  mutationType := none
  types := petDraft.registered
  possible := SchemaDraft.possibleIndex petDraft.registered

/-- Asks for the name of a pet that is a dog by what it says. -/
def petRequest : Request Nat where
  document := ⟨[.plain .query [.plain "pet" [.plain "name" []]]], []⟩
  root := .json [("pet", .obj [("__typename", .str "Dog"), ("name", .str "Rex")])]
  depth := 2
  rounds := 1

/-- A light pet is a cat and a heavy one a dog.  Between them neither is; and JSON data are what they say,
but not a pet of no kind. -/
theorem petSchema_decidesTypes :
    petDraft.build = .ok petSchema ∧ petSchema.Abstract "Pet" none ∧
      petSchema.Resolves "Pet" (.host 5) none catType ∧
      petSchema.Resolves "Pet" (.json [("__typename", .str "Dog")]) none dogType ∧
      (∀ t, ¬ petSchema.Resolves "Pet" (.host 15) none t) ∧
      (∀ t, ¬ petSchema.Resolves "Pet" (.json [("__typename", .str "Pet")]) none t) ∧
      "Pet" ∉ petSchema.possibleTypes "Pet" ∧
      ∃ work site, (petSchema.execute petRequest ()).work = some work ∧
        work.HasObject (.named "Pet") site ∧ site.objectType.name ∈ petSchema.possibleTypes "Pet" := by
  have hb : petDraft.build = .ok petSchema := rfl
  have habstract : petSchema.Abstract "Pet" none :=
    .interface (t := { name := "Pet", fields := [("name", { name := "name", type := .named "String" })] }) rfl
  have hdecides : petSchema.DecidesTypes "Pet" none := Schema.decidesTypes hb habstract
  have hboth : petSchema.objectTypeOf "Pet" (.host 15) =
      .error (.ambiguousType "Pet" (.severalMatch "Dog" "Cat")) := rfl
  have hself : petSchema.objectTypeOf "Pet" (.json [("__typename", .str "Pet")]) =
      .error (.ambiguousType "Pet" (.notPossible "Pet" "Pet")) := rfl
  have hwork : (petSchema.execute petRequest ()).work = some (.query (.branch
      (.object ⟨_, petRequest.root, []⟩) .together [.mk ⟨.key "pet", .named "Pet"⟩ (.branch
        (.object ⟨dogType, .json [("__typename", .str "Dog"), ("name", .str "Rex")], [.key "pet"]⟩)
        .together [.mk ⟨.key "name", .named "String"⟩ (.value (.str "Rex"))])])) := rfl
  have hlisted := (hdecides.executed _ _ _ hwork (.named "Pet") _ rfl (.query List.mem_cons_self .here)).1
  refine ⟨hb, habstract, (hdecides.found _ _).mp rfl, (hdecides.found _ _).mp rfl, ?_, ?_,
    hdecides.irreflexive, _, _, hwork, .query List.mem_cons_self .here, hlisted⟩
  · intro t ht
    cases hboth.symm.trans ((hdecides.found _ _).mpr ht)
  · intro t ht
    cases hself.symm.trans ((hdecides.found _ _).mpr ht)

end GraphQLEngine
