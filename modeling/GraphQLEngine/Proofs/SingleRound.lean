/-
Work that needs no second round.

Where no field has a resolver nothing is ever suspended, so a child that has a
step finishes in it, however many children a branch has at work together
(`Turns.ensures_step_finished`).  A round therefore finishes all work that comes to
something within its levels, and a query is responded to in the first round of a
run (`Schema.execute_of_unresolved`).

Nothing is said of mutations, whose fields would finish in one round too.
-/
import GraphQLEngine.Proofs.ScheduleIndependence
import GraphQLEngine.Proofs.SerialMutation

namespace GraphQLEngine

variable {ω σ : Type}

/-- A schema without resolvers: all fields are read from JSON data. -/
def Schema.Unresolved (schema : Schema ω σ) : Prop :=
  ∀ typeName type fieldName definition, schema.object? typeName = some type →
    type.fields.get? fieldName = some definition → definition.resolver? = none

theorem Schema.Unresolved.pure {schema : Schema ω σ} (h : schema.Unresolved) : schema.Pure := by
  intro typeName type fieldName definition htype hfield resolver hresolver
  rw [h typeName type fieldName definition htype hfield] at hresolver
  cases hresolver

/-! ## Children that finish in one step -/

/-- A step that finishes a task. -/
def Task.FinishedBy (log : List (Event ω)) (step : Task ω σ → Action ω σ (Task ω σ))
    (t : Task ω σ) : Prop :=
  (step t).Ensures log (fun t' => t'.outcome? ≠ none)

namespace Child

variable {log : List (Event ω)} {step : Task ω σ → Action ω σ (Task ω σ)}
  {children : List (Child ω σ)}

theorem ensures_forEach_finished
    (h : ∀ position t, .mk position t ∈ children → t.FinishedBy log step) :
    (Action.forEach (Child.step step) children).Ensures log (fun cs => outcomes? cs ≠ none) := by
  induction children with
  | nil => exact Action.ensures_pure (Option.some_ne_none [])
  | cons c rest ih =>
      have hrest := ih fun position t hmem => h position t (List.mem_cons_of_mem _ hmem)
      cases c with
      | absent key =>
          refine (show ((Child.absent key).step step).Ensures log (fun c => c = .absent key) from
            Action.ensures_pure rfl).bind ?_
          rintro _ rfl
          refine hrest.bind ?_
          intro rest' hrest'
          exact Action.ensures_pure (show outcomes? rest' ≠ none from hrest')
      | mk position t =>
          have hstep : ((Child.mk position t).step step).Ensures log
              (fun c => ∃ t', c = .mk position t' ∧ t'.outcome? ≠ none) :=
            (h position t List.mem_cons_self).bind fun t' ht => Action.ensures_pure ⟨t', rfl, ht⟩
          refine hstep.bind ?_
          rintro _ ⟨t', rfl, ht⟩
          refine hrest.bind ?_
          intro rest' hrest'
          obtain ⟨o, ho⟩ := Option.ne_none_iff_exists'.mp ht
          obtain ⟨os, hos⟩ := Option.ne_none_iff_exists'.mp hrest'
          refine Action.ensures_pure ?_
          rw [outcomes?_mk_cons.mpr ⟨o, os, ho, hos, rfl⟩]
          exact Option.some_ne_none _

/-- No child is left in the queue, since each that has its turn finishes. -/
theorem ensures_stepQueued_finished
    (hkeeps : ∀ t : Task ω σ, t.outcome? ≠ none → t.FinishedBy log step) (fuel : Nat) :
    ∀ (waited : Bool) (queue : List Nat) {children : List (Child ω σ)},
      queue.length ≤ fuel → (Turns.queued queue).Covers children →
      (∀ position t, .mk position t ∈ children → t.FinishedBy log step) →
      (Turns.stepQueued step fuel waited queue children).Ensures log (fun r => outcomes? r.2 ≠ none) := by
  -- Where the queue is empty, everything is finished.
  have done : ∀ {children : List (Child ω σ)}, (Turns.queued []).Covers children →
      outcomes? children ≠ none := by
    intro children hcov hnone
    obtain ⟨i, c, hi, hc⟩ := exists_unfinished hnone
    cases hcov i c hi hc
  induction fuel with
  | zero =>
      intro waited queue children hfuel hcov _
      obtain rfl : queue = [] := List.length_eq_zero_iff.mp (Nat.le_zero.mp hfuel)
      exact Action.ensures_pure (done hcov)
  | succ fuel ih =>
      intro waited queue children hfuel hcov hready
      cases queue with
      | nil => exact Action.ensures_pure (done hcov)
      | cons i queue =>
          have hlength : queue.length ≤ fuel := Nat.le_of_succ_le_succ hfuel
          -- The rest of the queue has its turns with a finished child in place.
          have later : ∀ c' : Child ω σ, c'.isFinished = true →
              (∀ position t, c' = .mk position t → t.outcome? ≠ none) →
              (Turns.stepQueued step fuel false queue (children.set i c')).Ensures log
                (fun r => outcomes? r.2 ≠ none) := by
            intro c' hfinished hdone
            refine ih false queue hlength
              (Turns.covers_queued_set hcov (fun _ hj => hj) (by simp [hfinished])) ?_
            intro position t hmem
            rcases List.mem_or_eq_of_mem_set hmem with hmem | heq
            · exact hready position t hmem
            · exact hkeeps t (hdone position t heq.symm)
          rw [Turns.stepQueued]
          rcases hi : children[i]? with _ | ⟨position, t⟩ | key
          · exact ih waited queue hlength (Turns.covers_queued_tail hcov hi) hready
          · have hstep : ((Child.mk position t).step step).Ensures log
                (fun c => ∃ t', c = .mk position t' ∧ t'.outcome? ≠ none) :=
              (hready position t (List.mem_of_getElem? hi)).bind fun t' ht =>
                Action.ensures_pure ⟨t', rfl, ht⟩
            refine hstep.bind ?_
            rintro _ ⟨t', rfl, ht⟩
            have hfinished : (Child.mk position t').isFinished = true := Option.isSome_iff_ne_none.mpr ht
            rw [if_pos hfinished]
            refine later _ hfinished ?_
            intro position' u heq
            cases heq
            exact ht
          · refine (show ((Child.absent key).step step).Ensures log (fun c => c = .absent key) from
              Action.ensures_pure rfl).bind ?_
            intro c hc
            subst hc
            rw [if_pos (show (Child.absent key : Child ω σ).isFinished = true from rfl)]
            refine later _ rfl ?_
            intro position' u heq
            cases heq

end Child

/-- If each child finishes in a step, and every unfinished one gets a turn, a step of the branch
finishes them all. -/
theorem Turns.ensures_step_finished {log : List (Event ω)} {step : Task ω σ → Action ω σ (Task ω σ)}
    (hkeeps : ∀ t : Task ω σ, t.outcome? ≠ none → t.FinishedBy log step) (turns : Turns)
    {children : List (Child ω σ)} (hcov : turns.Covers children)
    (h : ∀ position t, .mk position t ∈ children → t.FinishedBy log step) :
    (turns.step step children).Ensures log (fun r => Child.outcomes? r.2 ≠ none) := by
  cases turns with
  | together =>
      refine (Child.ensures_forEach_finished h).bind ?_
      intro children' hdone
      exact Action.ensures_pure hdone
  | queued queue =>
      have hfuel : queue.length ≤ 2 * queue.length := by omega
      refine (Child.ensures_stepQueued_finished hkeeps (2 * queue.length) false queue hfuel hcov h).bind ?_
      intro r hdone
      exact Action.ensures_pure hdone

/-! ## Work without resolvers -/

/-- A task in which no resolver is called, and every unfinished child gets a turn. -/
inductive Task.Prompt : Task ω σ → Prop
  | value (json : Json) : Prompt (.value json)
  | failed (error : ResponseError) : Prompt (.failed error)
  | item (group : FieldGroup) (type : TypeRef) (path : Path)
      (answer : Except ResolverFailure (Resolved ω)) : Prompt (.unstarted (.item group type path answer))
  | field {site : Site ω σ} {group : FieldGroup} {definition : FieldDefinition ω σ} :
      definition.resolver? = none → Prompt (.unstarted (.field site group definition))
  | branch {shape : Shape ω σ} {turns : Turns} {children : List (Child ω σ)} :
      turns.Covers children → (∀ position t, .mk position t ∈ children → Prompt t) →
      Prompt (.branch shape turns children)

namespace Scope

variable {scope : Scope ω σ} {state : σ} {log : List (Event ω)}

theorem prompt_objectTask (h : scope.schema.Unresolved) (site : Site ω σ)
    (hsite : ∃ name, scope.schema.object? name = some site.objectType) (selections : List Selection) :
    (scope.objectTask site selections).Prompt := by
  obtain ⟨name, hname⟩ := hsite
  refine .branch (scope.covers_turns _) ?_
  intro position t hmem
  obtain ⟨group, _, hchild⟩ := List.mem_map.mp hmem
  rw [fieldChild] at hchild
  split at hchild
  · cases hchild
    exact .value _
  · split at hchild
    · cases hchild
    · cases hchild
      exact .field (h name site.objectType group.first.name _ hname ‹_›)

theorem prompt_completeAnswer (h : scope.schema.Unresolved) (group : FieldGroup) (type : TypeRef)
    (path : Path) (answer : Except ResolverFailure (Resolved ω)) :
    (scope.completeAnswer group type path answer).Prompt := by
  have hcompletes := scope.completes_completeAnswer group type path answer
  generalize scope.completeAnswer group type path answer = t at hcompletes
  cases hcompletes with
  | failed fault => exact .failed _
  | null _ => exact .value _
  | scalar _ _ _ _ => exact .value _
  | enum _ _ _ => exact .value _
  | object _ _ htype => exact prompt_objectTask h _ (Schema.exists_object?_of_objectTypeOf htype) _
  | @list _ item items _ _ =>
      have hcovers := scope.covers_turns (itemChildren group item path 0 items)
      rw [length_itemChildren] at hcovers
      refine .branch hcovers ?_
      intro position t hmem
      obtain ⟨n, answer, hchild⟩ := exists_of_mem_itemChildren hmem
      cases hchild
      exact .item _ _ _ _

/-- A job without a resolver becomes what it is opened to. -/
theorem Begins.eq_opened {job : Job ω σ} {t : Task ω σ} (hb : scope.Begins log job t)
    (hjob : (Task.unstarted job).Prompt) (state : σ) : t = scope.opened state (.unstarted job) := by
  cases hb with
  | item group type path answer => rfl
  | refused hargs => simp only [opened, hargs]
  | answered hargs hanswer =>
      cases hjob with
      | field hres =>
          simp only [FieldDefinition.Answers, hres] at hanswer
          simp only [opened, hargs, FieldDefinition.answerIn, hres, hanswer]
  | waiting _ hres _ =>
      cases hjob with
      | field hres' =>
          rw [hres'] at hres
          cases hres

theorem prompt_opened (h : scope.schema.Unresolved) (state : σ) (job : Job ω σ) :
    (scope.opened state (.unstarted job)).Prompt := by
  cases job with
  | item group type path answer => exact prompt_completeAnswer h _ _ _ _
  | field site group definition =>
      rw [opened]
      split
      · exact .failed _
      · exact prompt_completeAnswer h _ _ _ _

/-- A round leaves finished work finished. -/
theorem finishedBy_round (scope : Scope ω σ) (levels : Nat) {t : Task ω σ} (h : t.outcome? ≠ none) :
    t.FinishedBy log (scope.round levels) := by
  intro state _
  obtain ⟨t', hrun, hsame⟩ := scope.round_keepsQuiet levels t (Option.isSome_iff_ne_none.mpr h) state
  rw [hrun]
  exact (show t'.outcome? = t.outcome? from hsame) ▸ h

/-- One round finishes all work that comes to something. -/
theorem finishes_round (h : scope.schema.Unresolved) (state : σ) :
    ∀ (levels : Nat) (t : Task ω σ), t.Prompt → scope.eventual? state levels t ≠ none →
      t.FinishedBy log (scope.round levels)
  | 0, _, _, hev => Action.ensures_pure hev
  | levels + 1, t, hprompt, hev => by
      -- What has begun goes on with its children, which have one level less.
      have below : ∀ u : Task ω σ, u.Prompt → u.outcomeBy (scope.eventual? state levels) ≠ none →
          (stepChildren (scope.round levels) u).Ensures log (fun u' => u'.outcome? ≠ none) := by
        intro u hu hcomes
        cases hu with
        | value _ => exact Action.ensures_pure (Option.some_ne_none _)
        | failed _ => exact Action.ensures_pure (Option.some_ne_none _)
        | item _ _ _ _ => exact absurd rfl hcomes
        | field _ => exact absurd rfl hcomes
        | @branch shape turns children hcov hall =>
            have hchildren : Child.outcomesBy (scope.eventual? state levels) children ≠ none := by
              intro hnone
              exact hcomes (Option.map_eq_none_iff.mpr hnone)
            refine (Turns.ensures_step_finished (fun t ht => finishedBy_round scope levels ht) turns
              hcov ?_).bind ?_
            · intro position t hmem
              exact finishes_round h state levels t (hall position t hmem)
                (Child.ne_none_of_outcomesBy hchildren hmem)
            · intro r hdone
              refine Action.ensures_pure fun hnone => hdone ?_
              exact Option.map_eq_none_iff.mp hnone
      cases t with
      | value _ => exact Action.ensures_pure (Option.some_ne_none _)
      | failed _ => exact Action.ensures_pure (Option.some_ne_none _)
      | waiting _ _ => cases hprompt
      | unstarted job =>
          refine (scope.ensures_begin job).bind ?_
          intro t' hb
          rw [hb.eq_opened hprompt state]
          exact below _ (prompt_opened h state job) hev
      | branch shape turns children => exact below _ hprompt hev

end Scope

/-! ## Queries -/

namespace Schema

variable {schema : Schema ω σ} {request : Request ω} {operation : Operation} {root : ObjectType ω σ}
  {prepared : Prepared ω σ}

theorem Prepares.start_eq_query (hp : schema.Prepares request operation root prepared)
    (hquery : operation.kind = .query) :
    prepared.start =
      .query (prepared.scope.objectTask ⟨root, request.root, []⟩ operation.selections) := by
  rw [hp.start_eq, hquery]
  rfl

/-- Without resolvers a query ends in the first round of its run, if it comes to something at all. -/
theorem execute_of_unresolved (h : schema.Unresolved)
    (hp : schema.Prepares request operation root prepared) (hquery : operation.kind = .query)
    {state : σ} {ending : Ending} (hends : schema.finally? state request = some ending)
    (hrounds : request.rounds ≠ 0) (state' : σ) :
    (schema.execute request state').ending = ending := by
  obtain ⟨limit, hlimit⟩ := Nat.exists_eq_succ_of_ne_zero hrounds
  have hstart := hp.start_eq_query hquery
  have hschema : prepared.scope.schema = schema := by rw [hp.scope_eq]
  have hunresolved : prepared.scope.schema.Unresolved := hschema ▸ h
  have hroot : prepared.scope.schema.object? schema.queryType = some root := by
    rw [hschema]
    exact (hquery ▸ hp.root_eq : schema.root? .query = some root)
  rw [finally?, hp.prepare_eq] at hends
  obtain ⟨o, ho, rfl⟩ := Option.map_eq_some_iff.mp hends
  -- The round that finishes the work leaves what it comes to as it is.
  have hdone : ((prepared.scope.workRound prepared.levels prepared.start).run state').1.outcome? ≠
      none := by
    rw [hstart] at ho ⊢
    have hprompt := Scope.prompt_objectTask hunresolved ⟨root, request.root, []⟩ ⟨_, hroot⟩
      operation.selections
    exact Scope.finishes_round hunresolved state (prepared.levels + 1) _ hprompt
      (fun hnone => by cases hnone.symm.trans ho) state' (List.Subset.refl _)
  have hadvances : prepared.scope.WorkAdvances state prepared.levels prepared.start
      ((prepared.scope.workRound prepared.levels prepared.start).run state').1 :=
    Prepared.workRound_advances hunresolved.pure state (hp.sound h.pure).2 state'
  obtain ⟨o', ho'⟩ := Option.ne_none_iff_exists'.mp hdone
  have hsame := hadvances.finished o' ho'
  rw [hadvances.eventual, ho] at hsame
  obtain rfl := Option.some.inj hsame
  rw [execute, hlimit, hp.prepare_eq]
  simp only [Prepared.runOn, ho']

end Schema

end GraphQLEngine
