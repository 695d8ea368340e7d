/-
Responses do not depend on how long resolvers are suspended.

What work comes to in the end cannot tell suspensions apart
(`eventual?_delayed`).  For resolvers that pay no regard to the shared state,
every run that is not cut off ends with that, and every run with rounds enough
is not cut off (Proofs/Progress).  So two assignments of suspensions give one
ending, whatever the state, and if one of them gives an ending at all, so does
the other (`execute_delayed`).

Events and the last state do depend on suspensions.
-/
import GraphQLEngine.Proofs.Account
import GraphQLEngine.Proofs.Delays
import GraphQLEngine.Proofs.Progress

namespace GraphQLEngine

variable {ω σ : Type}

/-! ## Outcomes -/

theorem Shape.join_delayed (delays : Delays) (shape : Shape ω σ) :
    (shape.delayed delays).join = shape.join := by
  cases shape <;> rfl

mutual

theorem Task.outcome?_delayed (delays : Delays) : ∀ t : Task ω σ,
    (t.delayed delays).outcome? = t.outcome?
  | .value _ => rfl
  | .failed _ => rfl
  | .unstarted _ => rfl
  | .waiting _ _ => rfl
  | .branch shape _ children => by
      rw [Task.delayed, Task.outcome?, Task.outcome?, Child.outcomes?_delayedAll delays children,
        Shape.join_delayed]

theorem Child.outcomes?_delayedAll (delays : Delays) : ∀ children : List (Child ω σ),
    Child.outcomes? (Child.delayedAll delays children) = Child.outcomes? children
  | [] => rfl
  | .absent _ :: rest => Child.outcomes?_delayedAll delays rest
  | .mk position task :: rest => by
      rw [Child.delayedAll, Child.outcomes?, Child.outcomes?, Task.outcome?_delayed delays task,
        Child.outcomes?_delayedAll delays rest]

end

section Eventually

variable {delays : Delays} {f g : Task ω σ → Option Outcome}

theorem Child.outcomesBy_delayedAll (h : ∀ t, f (t.delayed delays) = g t) :
    ∀ children, Child.outcomesBy f (Child.delayedAll delays children) = Child.outcomesBy g children
  | [] => rfl
  | .absent _ :: rest => Child.outcomesBy_delayedAll h rest
  | .mk position task :: rest => by
      rw [Child.delayedAll, Child.outcomesBy, Child.outcomesBy, h task,
        Child.outcomesBy_delayedAll h rest]

theorem Task.outcomeBy_delayed (h : ∀ t, f (t.delayed delays) = g t) :
    ∀ t : Task ω σ, (t.delayed delays).outcomeBy f = t.outcomeBy g
  | .value _ => rfl
  | .failed _ => rfl
  | .unstarted _ => rfl
  | .waiting _ _ => rfl
  | .branch shape _ children => by
      rw [Task.delayed, Task.outcomeBy, Task.outcomeBy, Child.outcomesBy_delayedAll h,
        Shape.join_delayed]

theorem Child.inOrderBy_delayedAll (h : ∀ t, f (t.delayed delays) = g t) :
    ∀ children, Child.inOrderBy f (Child.delayedAll delays children) = Child.inOrderBy g children
  | [] => rfl
  | .absent _ :: rest => Child.inOrderBy_delayedAll h rest
  | .mk position task :: rest => by
      rw [Child.delayedAll, Child.inOrderBy, Child.inOrderBy, h task,
        Child.inOrderBy_delayedAll h rest]

end Eventually

namespace Scope

variable (delays : Delays) (scope : Scope ω σ) (state : σ)

/-- Tasks are opened alike: an answer is the same after any suspension. -/
theorem opened_delayed : ∀ t : Task ω σ,
    (scope.delayed delays).opened state (t.delayed delays) = (scope.opened state t).delayed delays
  | .value _ => rfl
  | .failed _ => rfl
  | .branch _ _ _ => rfl
  | .waiting _ _ => scope.completeAnswer_delayed delays _ _ _ _
  | .unstarted (.item group type path answer) =>
      scope.completeAnswer_delayed delays group type path answer
  | .unstarted (.field site group definition) => by
      have hanswer : ∀ info,
          (definition.delayed (delays site.objectType.name group.first.name)).answerIn state info =
            definition.answerIn state info := by
        intro info
        unfold FieldDefinition.answerIn FieldDefinition.delayed
        cases definition.resolver? with
        | none => rfl
        | some _ => rfl
      have harguments : (definition.delayed
          (delays site.objectType.name group.first.name)).arguments = definition.arguments := rfl
      simp only [Task.delayed, Job.delayed, opened, coerceArguments_delayed, hanswer, harguments]
      cases scope.coerceArguments group.first definition.arguments with
      | error _ => rfl
      | ok _ => exact scope.completeAnswer_delayed delays _ _ _ _

theorem eventual?_delayed : ∀ (levels : Nat) (t : Task ω σ),
    (scope.delayed delays).eventual? state levels (t.delayed delays) = scope.eventual? state levels t
  | 0, t => t.outcome?_delayed delays
  | levels + 1, t => by
      rw [eventual?, eventual?, opened_delayed]
      exact Task.outcomeBy_delayed (eventual?_delayed levels) _

end Scope

/-! ## Operations -/

def Work.delayed (delays : Delays) : Work ω σ → Work ω σ
  | .query task => .query (task.delayed delays)
  | .mutation site fields => .mutation (site.delayed delays) (Child.delayedAll delays fields)

def Prepared.delayed (delays : Delays) (prepared : Prepared ω σ) : Prepared ω σ where
  scope := prepared.scope.delayed delays
  start := prepared.start.delayed delays
  levels := prepared.levels

theorem Scope.workEventual?_delayed (delays : Delays) (scope : Scope ω σ) (state : σ) (levels : Nat) :
    ∀ work : Work ω σ, (scope.delayed delays).workEventual? state levels (work.delayed delays) =
      scope.workEventual? state levels work
  | .query task => scope.eventual?_delayed delays state (levels + 1) task
  | .mutation site fields => by
      rw [Work.delayed, workEventual?, workEventual?,
        Child.inOrderBy_delayedAll (scope.eventual?_delayed delays state levels)]
      rfl

theorem Scope.operationWork_delayed (delays : Delays) (scope : Scope ω σ) (kind : OperationKind)
    (site : Site ω σ) (selections : List Selection) :
    (scope.delayed delays).operationWork kind (site.delayed delays) selections =
      (scope.operationWork kind site selections).delayed delays := by
  match kind with
  | .query => exact congrArg Work.query (scope.objectTask_delayed delays site selections)
  | .subscription => exact congrArg Work.query (scope.objectTask_delayed delays site selections)
  | .mutation =>
      exact congrArg (Work.mutation _) (scope.fieldChildren_delayed delays site selections)

namespace Schema

variable (delays : Delays) (schema : Schema ω σ)

theorem levels_delayed (depth : Nat) : (schema.delayed delays).levels depth = schema.levels depth := by
  have hdepth : (schema.delayed delays).listDepth = schema.listDepth := by
    unfold listDepth Schema.delayed
    rw [List.foldr_map]
    congr 1
    funext t deepest
    match t with
    | (_, .object o) =>
        show (o.fields.map _).foldr _ deepest = o.fields.foldr _ deepest
        rw [List.foldr_map]
        rfl
    | (_, .scalar _) => rfl
    | (_, .interface _) => rfl
    | (_, .union _) => rfl
    | (_, .enum _) => rfl
  rw [levels, levels, hdepth]

/-- Requests are prepared alike. -/
theorem prepare_delayed (request : Request ω) :
    (schema.delayed delays).prepare request = (schema.prepare request).map (·.delayed delays) := by
  unfold prepare
  match request.document.selectOperation request.operationName with
  | .error _ => rfl
  | .ok operation =>
      simp only [bind, Except.bind]
      by_cases hk : operation.kind = .subscription
      · simp only [hk, if_true]
        rfl
      · simp only [hk, if_false, root?_delayed]
        match schema.root? operation.kind with
        | none => rfl
        | some root =>
            have hvariables : (schema.delayed delays).coerceVariables operation
                request.variableValues = schema.coerceVariables operation request.variableValues :=
              schema.bindVariables_delayed delays _ _ _
            simp only [Option.map_some, hvariables, levels_delayed]
            match schema.coerceVariables operation request.variableValues with
            | .error _ => rfl
            | .ok bindings =>
                have hwork := Scope.operationWork_delayed delays
                  ⟨schema, request.document.fragments, bindings, request.width⟩ operation.kind
                  ⟨root, request.root, []⟩ operation.selections
                simp only [Scope.delayed, Site.delayed] at hwork
                simp only [pure, Except.pure, Except.map, Prepared.delayed, Scope.delayed, hwork]

variable {schema}

theorem Pure.delayed (h : schema.Pure) : (schema.delayed delays).Pure := by
  intro typeName type fieldName definition htype hfield resolver hresolver
  rw [object?_delayed, Option.map_eq_some_iff] at htype
  obtain ⟨type, htype, rfl⟩ := htype
  rw [get?_fields_delayed, Option.map_eq_some_iff] at hfield
  obtain ⟨definition, hfield, rfl⟩ := hfield
  obtain ⟨original, horiginal, rfl⟩ := Option.map_eq_some_iff.mp hresolver
  exact h typeName type fieldName definition htype hfield original horiginal

theorem Prepares.sound {request : Request ω} {operation : Operation} {root : ObjectType ω σ}
    {prepared : Prepared ω σ} (hp : schema.Prepares request operation root prepared)
    (hpure : schema.Pure) : prepared.scope.schema.Pure ∧ prepared.start.Sound := by
  have hschema : prepared.scope.schema = schema := by rw [hp.scope_eq]
  have hscope : prepared.scope.schema.Pure := hschema ▸ hpure
  have hroot : ∃ name, prepared.scope.schema.object? name = some root := by
    rw [hschema]
    have h := hp.root_eq
    match operation.kind, h with
    | .query, h => exact ⟨_, h⟩
    | .mutation, h =>
        obtain ⟨name, _, hname⟩ := Option.bind_eq_some_iff.mp h
        exact ⟨name, hname⟩
  refine ⟨hscope, ?_⟩
  rw [hp.start_eq]
  exact Scope.sound_operationWork hscope hroot operation.kind operation.selections

/-! ## Endings -/

/-- How a run of a request ends that is not cut off, if it ends at all: resolvers answer in one
state. -/
def finally? (schema : Schema ω σ) (state : σ) (request : Request ω) : Option Ending :=
  match schema.prepare request with
  | .error reason => some (.refused reason)
  | .ok prepared =>
    (prepared.scope.workEventual? state prepared.levels prepared.start).map
      (fun o => .responded o.toResponse)

theorem finally?_delayed (schema : Schema ω σ) (delays : Delays) (state : σ) (request : Request ω) :
    (schema.delayed delays).finally? state request = schema.finally? state request := by
  unfold finally?
  rw [prepare_delayed]
  match schema.prepare request with
  | .error _ => rfl
  | .ok prepared =>
      exact congrArg (Option.map _)
        (prepared.scope.workEventual?_delayed delays state prepared.levels prepared.start)

/-- A run that is not cut off ends as its request does. -/
theorem finally?_of_execute (hpure : schema.Pure) (state : σ) {request : Request ω} {state' : σ}
    (h : (schema.execute request state').ending ≠ .cancelled) :
    schema.finally? state request = some (schema.execute request state').ending := by
  unfold execute at h ⊢
  rw [finally?]
  match hr : request.rounds, hp : schema.prepare request with
  | 0, _ => simp [hr] at h
  | limit + 1, .error reason => rfl
  | limit + 1, .ok prepared =>
      obtain ⟨operation, root, hprepares⟩ := schema.exists_of_prepare hp
      obtain ⟨hscope, hsound⟩ := hprepares.sound hpure
      simp only [hr, hp] at h ⊢
      match he : (prepared.runOn (limit + 1) prepared.start state').ending with
      | .cancelled => exact absurd he h
      | .refused reason => exact absurd he (Prepared.runOn_ne_refused _ _ _)
      | .responded response =>
          obtain ⟨o, ho, rfl⟩ := Prepared.eventual?_of_runOn hscope state hsound he
          rw [ho, Option.map_some]

/-- With rounds enough, a run ends as its request does. -/
theorem execute_of_finally? (hpure : schema.Pure) {state : σ} {request : Request ω} {ending : Ending}
    (h : schema.finally? state request = some ending) (state' : σ) :
    ∃ enough, ∀ rounds, enough ≤ rounds →
      (schema.execute { request with rounds } state').ending = ending := by
  rw [finally?] at h
  cases hp : schema.prepare request with
  | error reason =>
      rw [hp] at h
      cases h
      refine ⟨1, ?_⟩
      intro rounds hrounds
      cases rounds with
      | zero => exact absurd hrounds (Nat.not_succ_le_zero _)
      | succ limit =>
          have hp' : schema.prepare { request with rounds := limit + 1 } = .error reason := hp
          simp only [execute, hp']
  | ok prepared =>
      rw [hp] at h
      obtain ⟨o, ho, rfl⟩ := Option.map_eq_some_iff.mp h
      obtain ⟨operation, root, hprepares⟩ := schema.exists_of_prepare hp
      obtain ⟨hscope, hsound⟩ := hprepares.sound hpure
      refine ⟨prepared.scope.workWeight state prepared.levels prepared.start + 1, ?_⟩
      intro rounds hrounds
      cases rounds with
      | zero => exact absurd hrounds (Nat.not_succ_le_zero _)
      | succ limit =>
          have hp' : schema.prepare { request with rounds := limit + 1 } = .ok prepared := hp
          simp only [execute, hp']
          exact Prepared.runOn_of_eventual? hscope state' hsound ho hrounds

/-- The endings of runs do not depend on suspensions, nor on the state: two runs that are not cut off
end alike, and if one is not, the other need only have rounds enough. -/
theorem execute_delayed (hpure : schema.Pure) {request : Request ω} {delays : Delays} {state : σ}
    (h : ((schema.delayed delays).execute request state).ending ≠ .cancelled)
    (delays' : Delays) (state' : σ) :
    (((schema.delayed delays').execute request state').ending ≠ .cancelled →
      ((schema.delayed delays').execute request state').ending =
        ((schema.delayed delays).execute request state).ending) ∧
    ∃ enough, ∀ rounds, enough ≤ rounds →
      ((schema.delayed delays').execute { request with rounds } state').ending =
        ((schema.delayed delays).execute request state).ending := by
  have hends := finally?_of_execute (hpure.delayed delays) state h
  rw [finally?_delayed] at hends
  constructor
  · intro h'
    have hends' := finally?_of_execute (hpure.delayed delays') state h'
    rw [finally?_delayed, hends] at hends'
    exact (Option.some.inj hends').symm
  · exact execute_of_finally? (hpure.delayed delays')
      ((schema.finally?_delayed delays' state request).trans hends) state'

end Schema

/-- A schema is pure if all fields are of the only object type. -/
theorem Schema.pure_of_single {schema : Schema ω σ} {name : Name} {type : ObjectType ω σ}
    (htypes : schema.types =
      BuiltIn.scalars.map (fun t => (t.name, .scalar t)) ++ [(name, .object type)])
    (h : ∀ fieldName definition, (fieldName, definition) ∈ type.fields → definition.Pure) :
    schema.Pure := by
  intro typeName type' fieldName definition htype hfield
  have hmem := OrderedMap.mem_of_get? (type?_of_object? htype)
  rw [htypes, List.mem_append] at hmem
  rcases hmem with hscalar | hobject
  · obtain ⟨t, _, heq⟩ := List.mem_map.mp hscalar
    cases heq
  · cases List.mem_singleton.mp hobject
    exact h fieldName definition (OrderedMap.mem_of_get? hfield)

/-- Answers with a number, and counts the answers in the shared state. -/
def Resolver.number (n : Int) : Resolver Unit Nat where
  suspension := none
  answer := fun _ count => (.ok (.leaf (.int n)), count + 1)

/-- A schema with two numbers to ask for. -/
def numbersSchema : Schema Unit Nat where
  queryType := "Query"
  mutationType := none
  types := BuiltIn.scalars.map (fun t => (t.name, .scalar t)) ++ [("Query", .object {
    name := "Query"
    fields := [
      ("one", { name := "one", type := .named "Int", resolver? := some (.number 1) }),
      ("two", { name := "two", type := .named "Int", resolver? := some (.number 2) })] })]
  possible := []

def numbersRequest : Request Unit where
  document := ⟨[.plain .query [.plain "one" [], .plain "two" []]], []⟩
  root := .json []
  depth := 1
  rounds := 3

/-- Only the first number takes time. -/
def slowOne : Delays := fun _ field => if field = "one" then some 2 else none

theorem numbersSchema_pure : numbersSchema.Pure := by
  refine Schema.pure_of_single rfl ?_
  intro fieldName definition hfield resolver hresolver
  simp only [List.mem_cons, Prod.mk.injEq, List.not_mem_nil, or_false] at hfield
  rcases hfield with ⟨_, rfl⟩ | ⟨_, rfl⟩ <;> cases hresolver <;> exact fun _ _ _ => rfl

theorem numbersSchema_execute_delayed :
    numbersSchema.Pure ∧
    ((numbersSchema.delayed slowOne).execute numbersRequest 0).ending =
      .responded ⟨[], some [("one", .int 1), ("two", .int 2)]⟩ ∧
    (((numbersSchema.delayed fun _ _ => none).execute numbersRequest 7).ending ≠ .cancelled →
      ((numbersSchema.delayed fun _ _ => none).execute numbersRequest 7).ending =
        ((numbersSchema.delayed slowOne).execute numbersRequest 0).ending) ∧
    ∃ enough, ∀ rounds, enough ≤ rounds →
      ((numbersSchema.delayed fun _ _ => none).execute { numbersRequest with rounds } 7).ending =
        ((numbersSchema.delayed slowOne).execute numbersRequest 0).ending := by
  have run : ((numbersSchema.delayed slowOne).execute numbersRequest 0).ending =
      .responded ⟨[], some [("one", .int 1), ("two", .int 2)]⟩ := by decide +kernel
  exact ⟨numbersSchema_pure, run,
    Schema.execute_delayed numbersSchema_pure (by rw [run]; simp) (fun _ _ => none) 7⟩

end GraphQLEngine
