/-
Where the errors of a response come from.

An error reports a fault that the work on a job met with: in its arguments, from
its resolver, or in completing what it resolved to (`Scope.Meets`).  The job is one
of the operation's first, or below a job that was reached before it
(`Prepared.Reaches`).  That a task has no other parts than the work of such jobs
(`Task.StemsFrom`) is kept by each single thing that can happen to a task, and so
by a run, whether it responds or is cut off (`Schema.Prepares.execute_stemsFrom`).
-/
import GraphQLEngine.Proofs.Nesting

namespace GraphQLEngine

variable {ω σ : Type}

/-! ## Faults of jobs -/

namespace Scope

/-- A fault that the work on a job can meet with. -/
inductive Meets (scope : Scope ω σ) : Job ω σ → FieldFault → Prop
  | arguments {site : Site ω σ} {group : FieldGroup} {definition : FieldDefinition ω σ}
      {fault : FieldFault} : scope.coerceArguments group.first definition.arguments = .error fault →
      Meets scope (.field site group definition) fault
  | failure (job : Job ω σ) (failure : ResolverFailure) : Meets scope job (.resolverFailure failure)
  | completion {job : Job ω σ} {resolved : Resolved ω} {fault : FieldFault} :
      scope.complete job.group job.type job.path resolved = .error fault → Meets scope job fault

/-- An error reports a fault of a job that has a property. -/
def Reports (scope : Scope ω σ) (P : Job ω σ → Prop) (error : ResponseError) : Prop :=
  ∃ job fault, P job ∧ scope.Meets job fault ∧ error = fault.toError job.path job.group

end Scope

/-- A task that is the work of jobs with a property: they are left, or wait for their resolvers, or
have met with faults. -/
inductive Task.StemsFrom (scope : Scope ω σ) (P : Job ω σ → Prop) : Task ω σ → Prop
  | value (json : Json) : StemsFrom scope P (.value json)
  | failed {error : ResponseError} : scope.Reports P error → StemsFrom scope P (.failed error)
  | unstarted {job : Job ω σ} : P job → StemsFrom scope P (.unstarted job)
  | waiting {site : Site ω σ} {group : FieldGroup} {definition : FieldDefinition ω σ}
      {arguments : JsonObject} {resolver : Resolver ω σ} (rounds : Nat) :
      P (.field site group definition) →
      StemsFrom scope P (.waiting rounds ⟨site.info group arguments, resolver, definition.type, group⟩)
  | branch {shape : Shape ω σ} {turns : Turns} {children : List (Child ω σ)} :
      (∀ position t, .mk position t ∈ children → StemsFrom scope P t) →
      StemsFrom scope P (.branch shape turns children)

/-- Work on an operation that is the work of jobs with a property. -/
inductive Work.StemsFrom (scope : Scope ω σ) (P : Job ω σ → Prop) : Work ω σ → Prop
  | query {t : Task ω σ} : t.StemsFrom scope P → StemsFrom scope P (.query t)
  | mutation {site : Site ω σ} {fields : List (Child ω σ)} :
      (∀ position t, .mk position t ∈ fields → t.StemsFrom scope P) →
      StemsFrom scope P (.mutation site fields)

section StemsFrom

variable {scope : Scope ω σ} {P : Job ω σ → Prop}

/-! ## Errors of finished work -/

theorem Child.exists_of_mem_errors {e : ResponseError} :
    ∀ {children : List (Child ω σ)} {os : List (PathSegment × Outcome)},
      Child.outcomes? children = some os → e ∈ os.flatMap (fun o => o.2.errors) →
      ∃ position t o, .mk position t ∈ children ∧ t.outcome? = some o ∧ e ∈ o.errors
  | [], os, hos, he => by
      cases Option.some.inj hos
      cases he
  | .absent _ :: rest, os, hos, he => by
      obtain ⟨position, t, o, hmem, ho, he⟩ :=
        exists_of_mem_errors (show Child.outcomes? rest = some os from hos) he
      exact ⟨position, t, o, List.mem_cons_of_mem _ hmem, ho, he⟩
  | .mk position t :: rest, os, hos, he => by
      obtain ⟨o, os', ho, hos', rfl⟩ := Child.outcomes?_mk_cons.mp hos
      rw [List.flatMap_cons, Outcome.settle_errors] at he
      rcases List.mem_append.mp he with he | he
      · exact ⟨position, t, o, List.mem_cons_self, ho, he⟩
      · obtain ⟨position, t, o, hmem, ho, he⟩ := exists_of_mem_errors hos' he
        exact ⟨position, t, o, List.mem_cons_of_mem _ hmem, ho, he⟩

theorem Task.StemsFrom.reports {t : Task ω σ} (h : t.StemsFrom scope P) :
    ∀ {o : Outcome}, t.outcome? = some o → ∀ e ∈ o.errors, scope.Reports P e := by
  induction h with
  | value json =>
      intro o ho e he
      cases ho
      cases he
  | failed hreports =>
      intro o ho e he
      cases ho
      exact List.mem_singleton.mp he ▸ hreports
  | unstarted _ =>
      intro o ho
      cases ho
  | waiting _ _ =>
      intro o ho
      cases ho
  | branch _ ih =>
      intro o ho e he
      obtain ⟨os, hos, rfl⟩ := Option.map_eq_some_iff.mp ho
      obtain ⟨position, t, o, hmem, ho, he⟩ := Child.exists_of_mem_errors hos he
      exact ih position t hmem ho e he

theorem Work.StemsFrom.reports {work : Work ω σ} (h : work.StemsFrom scope P) {o : Outcome}
    (ho : work.outcome? = some o) : ∀ e ∈ o.errors, scope.Reports P e := by
  intro e he
  cases h with
  | query h => exact h.reports ho e he
  | mutation h =>
      obtain ⟨os, hos, rfl⟩ := Option.map_eq_some_iff.mp ho
      obtain ⟨position, t, o, hmem, ho, he⟩ := Child.exists_of_mem_errors hos he
      exact (h position t hmem).reports ho e he

/-! ## Steps -/

/-- What a branch begins with are the jobs that it holds, and values. -/
theorem Child.Fresh.stemsFrom {path : Path} {position : Position} {t : Task ω σ}
    (h : (Child.mk position t).Fresh path) (hholds : ∀ job, t.Holds job → P job) :
    t.StemsFrom scope P := by
  cases h with
  | typename key name => exact .value _
  | job _ => exact .unstarted (hholds _ .here)

namespace Scope

theorem stemsFrom_completeAnswer (hP : scope.Inherits P) {job : Job ω σ} (hjob : P job)
    (answer : Except ResolverFailure (Resolved ω)) :
    (scope.completeAnswer job.group job.type job.path answer).StemsFrom scope P := by
  have hbelow := hP.completed hjob answer
  cases answer with
  | error failure => exact .failed ⟨job, _, hjob, .failure job failure, rfl⟩
  | ok resolved =>
      rw [completeAnswer] at hbelow ⊢
      have hresults := scope.results_complete job.group job.path resolved job.type
      cases hcomplete : scope.complete job.group job.type job.path resolved with
      | error fault => exact .failed ⟨job, fault, hjob, .completion hcomplete, rfl⟩
      | ok task =>
          rw [hcomplete] at hbelow hresults
          cases hresults with
          | null _ => exact .value _
          | scalar _ _ _ _ => exact .value _
          | enum _ _ _ => exact .value _
          | object _ _ _ =>
              refine .branch ?_
              intro position t hmem
              exact (scope.fresh_fieldChildren _ _ _ hmem).stemsFrom
                fun job hholds => hbelow job (.child hmem hholds)
          | list _ _ =>
              refine .branch ?_
              intro position t hmem
              exact (fresh_itemChildren _ _ _ _ _ hmem).stemsFrom
                fun job hholds => hbelow job (.child hmem hholds)

/-- Nothing that can happen to a task adds what stems from other jobs. -/
theorem roundRel_stemsFrom (hP : scope.Inherits P) (log : List (Event ω)) :
    scope.RoundRel log (fun _ t t' => t.StemsFrom scope P → t'.StemsFrom scope P) where
  refl _ := id
  trans _ _ _ hab hbc := hbc ∘ hab
  begun {_ job _} h := by
    intro hstems
    obtain hjob : P job := by
      cases hstems with
      | unstarted hjob => exact hjob
    cases h with
    | item group type path answer => exact stemsFrom_completeAnswer hP hjob answer
    | refused hargs => exact .failed ⟨_, _, hjob, .arguments hargs, rfl⟩
    | answered _ _ => exact stemsFrom_completeAnswer hP hjob _
    | waiting _ _ _ => exact .waiting _ hjob
  waited h := by
    cases h with
    | waiting _ hjob => exact .waiting _ hjob
  resumed h := by
    obtain ⟨answer, _, rfl⟩ := h
    rintro (_ | _ | _ | ⟨_, hjob⟩)
    exact stemsFrom_completeAnswer hP hjob answer
  branched h _ := by
    rintro (_ | _ | _ | _ | hall)
    refine .branch ?_
    intro position t' hmem'
    obtain ⟨t, hmem, ht⟩ := Child.exists_mk_of_forall₂_right h hmem'
    exact ht (hall position t hmem)

theorem ensures_workRound_stemsFrom (hP : scope.Inherits P) (log : List (Event ω)) (levels : Nat)
    {work : Work ω σ} (h : work.StemsFrom scope P) :
    (scope.workRound levels work).Ensures log (Work.StemsFrom scope P) := by
  have hR := roundRel_stemsFrom hP log
  cases h with
  | @query t h =>
      refine (hR.round (levels + 1) t).bind ?_
      intro t' ht
      exact Action.ensures_pure (.query (ht h))
  | @mutation site fields h =>
      refine (Child.ensures_stepSerial (hR.round levels) fields).bind ?_
      intro fields' hfields
      refine Action.ensures_pure (.mutation ?_)
      intro position t' hmem'
      obtain ⟨t, hmem, ht⟩ := hfields.exists_mk (fun _ => id) hmem'
      exact ht (h position t hmem)

end Scope

/-! ## Runs -/

/-- A property of the work that every round keeps holds of the work that a run leaves. -/
theorem Prepared.runOn_keeps {prepared : Prepared ω σ} {Q : Work ω σ → Prop}
    (hQ : ∀ (log : List (Event ω)) (work : Work ω σ), Q work →
      (prepared.scope.workRound prepared.levels work).Ensures log Q) :
    ∀ (limit : Nat) {work : Work ω σ} (state : σ), Q work →
      ∃ work', (prepared.runOn limit work state).work = some work' ∧ Q work'
  | 0, work, _, h => ⟨work, rfl, h⟩
  | limit + 1, work, state, h => by
      have hround := hQ ((prepared.scope.workRound prepared.levels work).run state).2.2 work h state
        (List.Subset.refl _)
      simp only [runOn]
      cases ((prepared.scope.workRound prepared.levels work).run state).1.outcome? with
      | some o => exact ⟨_, rfl, hround⟩
      | none =>
          obtain ⟨work', hwork', hkept⟩ := prepared.runOn_keeps hQ limit
            ((prepared.scope.workRound prepared.levels work).run state).2.1 hround
          exact ⟨work', hwork', hkept⟩

theorem Prepared.runOn_stemsFrom {prepared : Prepared ω σ} (hP : prepared.scope.Inherits P)
    (limit : Nat) {work : Work ω σ} (state : σ) (h : work.StemsFrom prepared.scope P) :
    ∃ work', (prepared.runOn limit work state).work = some work' ∧
      work'.StemsFrom prepared.scope P :=
  prepared.runOn_keeps (fun log _ => Scope.ensures_workRound_stemsFrom hP log prepared.levels) limit state h

end StemsFrom

/-- A job that a request can come to: one of its operation's first, or one below such a job. -/
inductive Prepared.Reaches (prepared : Prepared ω σ) : Job ω σ → Prop
  | start {job : Job ω σ} : prepared.start.Holds job → Reaches prepared job
  | next {job below : Job ω σ} : Reaches prepared job →
      prepared.scope.Below job.group job.type job.path below → Reaches prepared below

theorem Prepared.Reaches.of_inherits {prepared : Prepared ω σ} {P : Job ω σ → Prop}
    (hP : prepared.scope.Inherits P) (hstart : ∀ job, prepared.start.Holds job → P job) {job : Job ω σ}
    (h : prepared.Reaches job) : P job := by
  induction h with
  | start hjob => exact hstart _ hjob
  | next _ hbelow ih => exact hP ih hbelow

namespace Schema

variable {schema : Schema ω σ} {request : Request ω} {operation : Operation} {root : ObjectType ω σ}
  {prepared : Prepared ω σ} {state : σ}

theorem Prepares.stemsFrom_start (hp : schema.Prepares request operation root prepared) :
    prepared.start.StemsFrom prepared.scope prepared.Reaches := by
  have hreaches : ∀ job, prepared.start.Holds job → prepared.Reaches job := fun _ => .start
  rw [hp.start_eq] at hreaches ⊢
  generalize (⟨root, request.root, []⟩ : Site ω σ) = site at hreaches ⊢
  have fresh := prepared.scope.fresh_fieldChildren site operation.selections
  cases hkind : operation.kind with
  | mutation =>
      rw [hkind] at hreaches
      refine .mutation ?_
      intro position t hmem
      exact (fresh _ hmem).stemsFrom fun job hholds => hreaches job (.mutation hmem hholds)
  | query | subscription =>
      rw [hkind] at hreaches
      refine .query (.branch ?_)
      intro position t hmem
      exact (fresh _ hmem).stemsFrom fun job hholds => hreaches job (.query (.child hmem hholds))

/-- All that a run leaves, and all errors of its response, stem from jobs that it reaches. -/
theorem Prepares.execute_stemsFrom (hp : schema.Prepares request operation root prepared) :
    (∀ work, (schema.execute request state).work = some work →
      work.StemsFrom prepared.scope prepared.Reaches) ∧
    ∀ response, (schema.execute request state).ending = .responded response →
      ∀ e ∈ response.errors, prepared.scope.Reports prepared.Reaches e := by
  cases hrounds : request.rounds with
  | zero => simp [execute, hrounds]
  | succ limit =>
      rw [execute, hrounds, hp.prepare_eq]
      have hinherits : prepared.scope.Inherits prepared.Reaches := fun _ _ => .next
      obtain ⟨work, hwork, hstems⟩ :=
        prepared.runOn_stemsFrom hinherits (limit + 1) state hp.stemsFrom_start
      constructor
      · intro work' hwork'
        exact Option.some.inj (hwork.symm.trans hwork') ▸ hstems
      · intro response hresponse e he
        obtain ⟨work', o, hwork', ho, rfl⟩ := Prepared.runOn_outcome hresponse
        obtain rfl : work = work' := Option.some.inj (hwork.symm.trans hwork')
        exact hstems.reports ho e he

end Schema

end GraphQLEngine
