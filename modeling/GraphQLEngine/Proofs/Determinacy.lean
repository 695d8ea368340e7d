/-
Work comes to one outcome by one set of calls, when answers do not depend on the
shared state.

A task that has unfolded to its end has the outcome that `Scope.eventual?` gives
it (`Unfolds.eventual_eq`), and any two such unfoldings have the same events
(`Unfolds.events_eq`), although the rounds and the turns may differ.  Both are
inductions over an unfolding; the second takes the other one apart case by case.

From this follows what the execution of one selection set on one object amounts
to.  `Scope.runSelections` runs it apart from any request, and
`Scope.RespondsWith` says that there is only one response.
-/
import GraphQLEngine.Proofs.Invocations
import GraphQLEngine.Proofs.Progress

namespace GraphQLEngine

variable {ω σ : Type}

/-! ## Events of courses -/

namespace Course

/-- The events of a course, whatever the rounds of their occurrence. -/
def events (course : Course ω) : List (Event ω) :=
  course.timeline.map Prod.snd

theorem events_together (first second : Course ω) :
    (Course.together first second).events = first.events ++ second.events :=
  List.map_append

/-- The rounds of a call do not matter to its events. -/
theorem events_call {next next' : Course ω} (h : next.events = next'.events) (info : ResolveInfo ω)
    (suspension : Option Nat) (started ended started' ended' : Nat)
    (answer : Except ResolverFailure (Resolved ω)) :
    (Course.call info suspension started ended answer next).events =
      (Course.call info suspension started' ended' answer next').events := by
  match suspension with
  | none => exact congrArg (_ :: ·) h
  | some _ => exact congrArg (_ :: _ :: ·) h

end Course

theorem Resolver.Pure.eq_of_gives {resolver : Resolver ω σ} (h : resolver.Pure)
    {info : ResolveInfo ω} {answer : Except ResolverFailure (Resolved ω)}
    (ha : resolver.Gives info answer) (state : σ) : answer = (resolver.answer info state).1 := by
  obtain ⟨s, rfl⟩ := ha
  exact h info s state

/-- However often it is asked, a pure resolver gives the same answer. -/
theorem Resolver.Pure.gives_unique {resolver : Resolver ω σ} (h : resolver.Pure)
    {info : ResolveInfo ω} {answer answer' : Except ResolverFailure (Resolved ω)}
    (ha : resolver.Gives info answer) (ha' : resolver.Gives info answer') : answer = answer' := by
  obtain ⟨state, rfl⟩ := ha'
  exact h.eq_of_gives ha state

/-! ## What children come to -/

namespace Child

theorem outcomesBy_append (f : Task ω σ → Option Outcome) : ∀ children later : List (Child ω σ),
    outcomesBy f (children ++ later) =
      (outcomesBy f children).bind fun os => (outcomesBy f later).map (os ++ ·)
  | [], later => by simp [outcomesBy]
  | .absent _ :: rest, later =>
      show outcomesBy f (rest ++ later) = (outcomesBy f rest).bind _ from
        outcomesBy_append f rest later
  | .mk _ t :: rest, later => by
      rw [List.cons_append, outcomesBy, outcomesBy, outcomesBy_append f rest later]
      cases f t <;> cases outcomesBy f rest <;> cases outcomesBy f later <;> rfl

theorem outcomesBy_mk_cons {f : Task ω σ → Option Outcome} {position : Position} {t : Task ω σ}
    {rest : List (Child ω σ)} {os : List (PathSegment × Outcome)} :
    outcomesBy f (.mk position t :: rest) = some os ↔
      ∃ o os', f t = some o ∧ outcomesBy f rest = some os' ∧
        os = (position.segment, o.settle position.type) :: os' := by
  rw [outcomesBy]
  cases f t with
  | none => simp
  | some o =>
      cases outcomesBy f rest with
      | none => simp
      | some os' => simp [eq_comm]

/-- There is one outcome for each child that has a place in the response. -/
theorem segments_of_outcomesBy {f : Task ω σ → Option Outcome} :
    ∀ {children : List (Child ω σ)} {os : List (PathSegment × Outcome)},
      outcomesBy f children = some os → os.map Prod.fst = children.filterMap segment?
  | [], _, h => by
      cases h
      rfl
  | .absent _ :: rest, os, h =>
      show os.map Prod.fst = rest.filterMap segment? from segments_of_outcomesBy h
  | .mk position _ :: rest, _, h => by
      obtain ⟨o, os, _, hrest, rfl⟩ := outcomesBy_mk_cons.mp h
      exact congrArg (position.segment :: ·) (segments_of_outcomesBy hrest)

end Child

/-! ## Determinacy -/

namespace Scope

variable {scope : Scope ω σ} {now : Nat}

/-- What a task comes to that is opened to a completed one. -/
theorem eventual?_of_opened {state : σ} {t u : Task ω σ} (h : scope.opened state t = u)
    (hu : scope.IsCompleted u) (levels : Nat) :
    scope.eventual? state (levels + 1) t = scope.eventual? state (levels + 1) u := by
  rw [hu.eventual?, eventual?, h]

mutual

/-- A task that has unfolded to its end has come to what it had to come to. -/
theorem Unfolds.eventual_eq (hpure : scope.schema.Pure) (state : σ) :
    ∀ {levels start : Nat} {t t' : Task ω σ} {course : Course ω} {o : Outcome},
      scope.Unfolds now levels start t t' course → t.Sound → t'.outcome? = some o →
      scope.eventual? state levels t = some o
  | _, _, _, _, _, _, .value _, _, ho => scope.eventual?_of_outcome? state _ _ _ ho
  | _, _, _, _, _, _, .failed _, _, ho => scope.eventual?_of_outcome? state _ _ _ ho
  | _, _, _, _, _, _, .unbegun _, _, ho => by cases ho
  | _, _, _, _, _, _, .item h, _, ho => by
      have hrest := h.eventual_eq hpure state (isCompleted_completeAnswer hpure _ _ _ _).sound ho
      exact (eventual?_of_opened rfl (isCompleted_completeAnswer hpure _ _ _ _) _).trans hrest
  | _, _, _, _, _, _, .refused hargs, _, ho => by
      refine (eventual?_of_opened ?_ (.failed _) _).trans (scope.eventual?_of_outcome? state _ _ _ ho)
      simp only [opened, hargs]
      rfl
  | _, _, _, _, _, _, .read hargs hres h, _, ho => by
      have hrest := h.eventual_eq hpure state (isCompleted_completeAnswer hpure _ _ _ _).sound ho
      refine (eventual?_of_opened ?_ (isCompleted_completeAnswer hpure _ _ _ _) _).trans hrest
      simp only [opened, hargs, FieldDefinition.answerIn, hres]
  | _, _, _, _, _, _, .called hargs hres hgives _ h, hs, ho => by
      have hrest := h.eventual_eq hpure state (isCompleted_completeAnswer hpure _ _ _ _).sound ho
      refine (eventual?_of_opened ?_ (isCompleted_completeAnswer hpure _ _ _ _) _).trans hrest
      simp only [opened, hargs, FieldDefinition.answerIn, hres, (hs _ hres).eq_of_gives hgives state]
  | _, _, _, _, _, _, .waiting _ _ _ _, _, ho => by cases ho
  | _, _, _, _, _, _, .branch _ h, hs, ho => by
      obtain ⟨os, hos, rfl⟩ := Option.map_eq_some_iff.mp ho
      rw [eventual?, opened, Task.outcomeBy, h.eventual_eq hpure state hs.2 hos, Option.map_some]

theorem UnfoldsAll.eventual_eq (hpure : scope.schema.Pure) (state : σ) :
    ∀ {levels start : Nat} {children children' : List (Child ω σ)} {course : Course ω}
      {os : List (PathSegment × Outcome)},
      scope.UnfoldsAll now levels start children children' course → Child.AllSound children →
      Child.outcomes? children' = some os →
      Child.outcomesBy (scope.eventual? state levels) children = some os
  | _, _, _, _, _, _, .nil, _, hos => hos
  | _, _, _, _, _, _, .absent h, hs, hos => h.eventual_eq hpure state hs hos
  | _, _, _, _, _, _, .cons h hrest, hs, hos => by
      obtain ⟨o, later, ho, hlater, rfl⟩ := Child.outcomes?_mk_cons.mp hos
      exact Child.outcomesBy_mk_cons.mpr ⟨o, later, h.eventual_eq hpure state hs.1 ho,
        hrest.eventual_eq hpure state hs.2 hlater, rfl⟩

end

mutual

/-- Two unfoldings of one task to its end have the same events. -/
theorem Unfolds.events_eq (hpure : scope.schema.Pure) {now' : Nat} :
    ∀ {levels start start' : Nat} {t t₁ t₂ : Task ω σ} {c₁ c₂ : Course ω} {o₁ o₂ : Outcome},
      scope.Unfolds now levels start t t₁ c₁ → scope.Unfolds now' levels start' t t₂ c₂ → t.Sound →
      t₁.outcome? = some o₁ → t₂.outcome? = some o₂ → c₁.events = c₂.events
  | _, _, _, _, _, _, _, _, _, _, .value _, h', _, _, _ => by
      cases h'
      rfl
  | _, _, _, _, _, _, _, _, _, _, .failed _, h', _, _, _ => by
      cases h'
      rfl
  | _, _, _, _, _, _, _, _, _, _, .unbegun _, _, _, ho₁, _ => by cases ho₁
  | _, _, _, _, _, _, _, _, _, _, .item h, h', _, ho₁, ho₂ => by
      cases h' with
      | unbegun _ => cases ho₂
      | item h' => exact h.events_eq hpure h' (isCompleted_completeAnswer hpure _ _ _ _).sound ho₁ ho₂
  | _, _, _, _, _, _, _, _, _, _, .refused hargs, h', _, _, ho₂ => by
      cases h' with
      | unbegun _ => cases ho₂
      | refused _ => rfl
      | read hargs' _ _ => cases hargs.symm.trans hargs'
      | called hargs' _ _ _ _ => cases hargs.symm.trans hargs'
      | waiting hargs' _ _ _ => cases hargs.symm.trans hargs'
  | _, _, _, _, _, _, _, _, _, _, .read hargs hres h, h', _, ho₁, ho₂ => by
      cases h' with
      | unbegun _ => cases ho₂
      | refused hargs' => cases hargs.symm.trans hargs'
      | read hargs' _ h' =>
          cases hargs.symm.trans hargs'
          exact h.events_eq hpure h' (isCompleted_completeAnswer hpure _ _ _ _).sound ho₁ ho₂
      | called _ hres' _ _ _ => cases hres.symm.trans hres'
      | waiting _ hres' _ _ => cases hres.symm.trans hres'
  | _, _, _, _, _, _, _, _, _, _, .called hargs hres hgives _ h, h', hs, ho₁, ho₂ => by
      cases h' with
      | unbegun _ => cases ho₂
      | refused hargs' => cases hargs.symm.trans hargs'
      | read _ hres' _ => cases hres.symm.trans hres'
      | called hargs' hres' hgives' _ h' =>
          cases hargs.symm.trans hargs'
          cases hres.symm.trans hres'
          cases (hs _ hres).gives_unique hgives hgives'
          have hrest := h.events_eq hpure h' (isCompleted_completeAnswer hpure _ _ _ _).sound ho₁ ho₂
          exact Course.events_call hrest _ _ _ _ _ _ _
      | waiting _ _ _ _ => cases ho₂
  | _, _, _, _, _, _, _, _, _, _, .waiting _ _ _ _, _, _, ho₁, _ => by cases ho₁
  | _, _, _, _, _, _, _, _, _, _, .branch _ h, .branch _ h', hs, ho₁, ho₂ => by
      obtain ⟨_, hos₁, _⟩ := Option.map_eq_some_iff.mp ho₁
      obtain ⟨_, hos₂, _⟩ := Option.map_eq_some_iff.mp ho₂
      exact h.events_eq hpure h' hs.2 hos₁ hos₂

theorem UnfoldsAll.events_eq (hpure : scope.schema.Pure) {now' : Nat} :
    ∀ {levels start start' : Nat} {children children₁ children₂ : List (Child ω σ)}
      {c₁ c₂ : Course ω} {os₁ os₂ : List (PathSegment × Outcome)},
      scope.UnfoldsAll now levels start children children₁ c₁ →
      scope.UnfoldsAll now' levels start' children children₂ c₂ → Child.AllSound children →
      Child.outcomes? children₁ = some os₁ → Child.outcomes? children₂ = some os₂ →
      c₁.events = c₂.events
  | _, _, _, _, _, _, _, _, _, _, .nil, .nil, _, _, _ => rfl
  | _, _, _, _, _, _, _, _, _, _, .absent h, .absent h', hs, hos₁, hos₂ =>
      h.events_eq hpure h' hs hos₁ hos₂
  | _, _, _, _, _, _, _, _, _, _, .cons h hrest, .cons h' hrest', hs, hos₁, hos₂ => by
      obtain ⟨_, _, ho₁, hlater₁, rfl⟩ := Child.outcomes?_mk_cons.mp hos₁
      obtain ⟨_, _, ho₂, hlater₂, rfl⟩ := Child.outcomes?_mk_cons.mp hos₂
      rw [Course.events_together, Course.events_together, h.events_eq hpure h' hs.1 ho₁ ho₂,
        hrest.events_eq hpure hrest' hs.2 hlater₁ hlater₂]

end

/-- Children of two kinds unfold apart from each other. -/
theorem UnfoldsAll.of_append {levels start : Nat} :
    ∀ {first second children' : List (Child ω σ)} {course : Course ω},
      scope.UnfoldsAll now levels start (first ++ second) children' course →
      ∃ first' second' c₁ c₂, children' = first' ++ second' ∧
        scope.UnfoldsAll now levels start first first' c₁ ∧
        scope.UnfoldsAll now levels start second second' c₂ ∧ course.events = c₁.events ++ c₂.events
  | [], _, _, _, h => ⟨[], _, .idle, _, rfl, .nil, h, rfl⟩
  | _ :: _, _, _, _, .absent h => by
      obtain ⟨first', second', c₁, c₂, rfl, h₁, h₂, hevents⟩ := of_append h
      exact ⟨_, second', c₁, c₂, rfl, .absent h₁, h₂, hevents⟩
  | _ :: _, _, _, _, .cons h hrest => by
      obtain ⟨first', second', c₁, c₂, rfl, h₁, h₂, hevents⟩ := of_append hrest
      refine ⟨_, second', _, c₂, rfl, .cons h h₁, h₂, ?_⟩
      rw [Course.events_together, Course.events_together, hevents, List.append_assoc]

end Scope

/-! ## Selection sets on an object -/

namespace Scope

/-- Executes a selection set on an object by itself, for at most `limit` rounds.  The fields are
worked on together, or one after the other if this is a mutation. -/
def runSelections (scope : Scope ω σ) (kind : OperationKind) (site : Site ω σ) (levels : Nat)
    (selections : List Selection) (limit : Nat) (state : σ) : Run ω σ :=
  let prepared : Prepared ω σ :=
    { scope, start := scope.operationWork kind site selections, levels }
  prepared.runOn limit prepared.start state

/-- Every run that is not cut off gives the response, and no run with rounds enough is cut off. -/
structure RespondsWith (scope : Scope ω σ) (kind : OperationKind) (site : Site ω σ) (levels : Nat)
    (selections : List Selection) (response : Response) : Prop where
  enough : ∃ enough, ∀ limit, enough ≤ limit → ∀ state,
    (scope.runSelections kind site levels selections limit state).ending = .responded response
  only : ∀ limit state,
    (scope.runSelections kind site levels selections limit state).ending ≠ .cancelled →
    (scope.runSelections kind site levels selections limit state).ending = .responded response

variable {scope : Scope ω σ} {kind : OperationKind} {site : Site ω σ} {levels : Nat}
  {selections : List Selection}

/-- A run that is not cut off responds. -/
theorem exists_responded {limit : Nat} {state : σ}
    (h : (scope.runSelections kind site levels selections limit state).ending ≠ .cancelled) :
    ∃ response,
      (scope.runSelections kind site levels selections limit state).ending = .responded response := by
  match he : (scope.runSelections kind site levels selections limit state).ending with
  | .cancelled => exact absurd he h
  | .refused _ => exact absurd he (Prepared.runOn_ne_refused _ _ _)
  | .responded response => exact ⟨response, rfl⟩

/-- A response is what the work comes to, in whatever state that is looked at. -/
theorem exists_workEventual (hpure : scope.schema.Pure)
    (hsite : ∃ name, scope.schema.object? name = some site.objectType) (state : σ) {limit : Nat}
    {state' : σ} {response : Response}
    (h : (scope.runSelections kind site levels selections limit state').ending =
      .responded response) :
    ∃ o, scope.workEventual? state levels (scope.operationWork kind site selections) = some o ∧
      response = o.toResponse :=
  Prepared.eventual?_of_runOn hpure state (sound_operationWork hpure hsite kind selections) h

/-- Work that comes to something gives the response for that. -/
theorem respondsWith_of_workEventual (hpure : scope.schema.Pure)
    (hsite : ∃ name, scope.schema.object? name = some site.objectType) (state : σ) {o : Outcome}
    (h : scope.workEventual? state levels (scope.operationWork kind site selections) = some o) :
    scope.RespondsWith kind site levels selections o.toResponse where
  enough := by
    have hsound := sound_operationWork hpure hsite kind selections
    refine ⟨scope.workWeight state levels (scope.operationWork kind site selections) + 1, ?_⟩
    intro limit hlimit state'
    exact Prepared.runOn_of_eventual? hpure state' hsound h hlimit
  only := by
    intro limit state' hended
    obtain ⟨response, hresponse⟩ := exists_responded hended
    obtain ⟨o', ho', rfl⟩ := exists_workEventual hpure hsite state hresponse
    obtain rfl : o = o' := Option.some.inj (h.symm.trans ho')
    exact hresponse

/-- The fields of a query come to their outcomes all together. -/
theorem workEventual?_query (state : σ) :
    scope.workEventual? state levels (scope.operationWork .query site selections) =
      (Child.outcomesBy (scope.eventual? state levels) (scope.fieldChildren site selections)).map
        (Shape.object site).join :=
  rfl

theorem workEventual?_mutation (state : σ) :
    scope.workEventual? state levels (scope.operationWork .mutation site selections) =
      (Child.inOrderBy (scope.eventual? state levels) (scope.fieldChildren site selections)).map
        (Shape.object site).join :=
  rfl

/-- The outcomes of the fields in a query that responds, and their course. -/
theorem exists_unfoldsAll_of_query {limit : Nat} {state : σ} {response : Response}
    (h : (scope.runSelections .query site levels selections limit state).ending =
      .responded response) :
    ∃ now turns children course os,
      (scope.runSelections .query site levels selections limit state).work =
        some (.query (.branch (.object site) turns children)) ∧
      scope.UnfoldsAll now levels 1 (scope.fieldChildren site selections) children course ∧
      Child.outcomes? children = some os ∧ response = fieldsResponse os ∧
      (scope.runSelections .query site levels selections limit state).events.Perm
        course.events := by
  let prepared : Prepared ω σ :=
    { scope, start := scope.operationWork .query site selections, levels }
  have hstart : prepared.start = prepared.scope.operationWork .query site selections := rfl
  obtain ⟨courses, hfollows, _⟩ := Prepared.follows_runOn hstart limit state
  obtain ⟨work, o, hwork, ho, rfl⟩ := Prepared.runOn_outcome h
  obtain ⟨work', hwork', hunfolds⟩ := hfollows.unfolds
  obtain rfl : work = work' := Option.some.inj (hwork.symm.trans hwork')
  have hperm := hfollows.perm_events
  cases hunfolds with
  | @query _ _ course hunfolds =>
      cases hunfolds with
      | @branch _ _ _ _ turns _ children _ _ hall =>
          obtain ⟨os, hos, rfl⟩ := Option.map_eq_some_iff.mp ho
          refine ⟨_, turns, children, course, os, hwork, hall, hos, toResponse_join site os, ?_⟩
          rw [List.flatMap_cons, List.flatMap_nil, List.append_nil] at hperm
          exact hperm

end Scope

end GraphQLEngine
