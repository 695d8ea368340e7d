/-
Executions end.

Neither the types of a schema nor the objects that resolvers return bound how far
an execution goes on: both may be cyclic, and how many children a task has is only
known when its resolver has answered.  What a round takes away is therefore
measured level by level (`Task.load`): a task that has not answered weighs more
than everything that can be below it, since that has fewer levels left.  As long as
something is unfinished that is not below the levels, a round makes the load
smaller (`lighter_round`), and loads are well-founded.  So work comes to its end
or stands below the levels (`Prepared.responds_or_cut`), and in an acyclic
document nothing stands below the levels of its own depth.

No bound on the number of rounds is given here.  Without a limit to the width there
is one in Proofs/CriticalPath.
-/
import GraphQLEngine.Proofs.CriticalPath
import GraphQLEngine.Proofs.DepthIndependence
import GraphQLEngine.Proofs.Inlining
import GraphQLEngine.Proofs.Turns
import Mathlib.Data.Finsupp.WellFounded

namespace GraphQLEngine

variable {ω σ : Type}

/-! ## Loads -/

/-- The sum over all children. -/
noncomputable def Child.loadBy (f : Task ω σ → Colex (ℕ →₀ ℕ)) : List (Child ω σ) → Colex (ℕ →₀ ℕ)
  | [] => 0
  | .absent _ :: rest => Child.loadBy f rest
  | .mk _ task :: rest => f task + Child.loadBy f rest

/-- The rounds that a task is still to wait for, counted apart for each number of levels that are left.
Those with more levels left weigh more. -/
noncomputable def Task.load : Nat → Task ω σ → Colex (ℕ →₀ ℕ)
  | 0, _ => 0
  | levels + 1, .branch _ _ children => Child.loadBy (Task.load levels) children
  | levels + 1, task => toColex (.single levels task.delay)

namespace Child

variable {f : Task ω σ → Colex (ℕ →₀ ℕ)}

theorem loadBy_apply_eq_zero {n : Nat} : ∀ {children : List (Child ω σ)},
    (∀ t, ofColex (f t) n = 0) → ofColex (loadBy f children) n = 0
  | [], _ => rfl
  | .absent _ :: rest, h =>
      show ofColex (loadBy f rest) n = 0 from loadBy_apply_eq_zero h
  | .mk _ t :: rest, h => by
      have hrest : ofColex (loadBy f rest) n = 0 := loadBy_apply_eq_zero h
      show ofColex (f t) n + ofColex (loadBy f rest) n = 0
      rw [h t, hrest]

theorem loadBy_le {R : Task ω σ → Task ω σ → Prop} (hR : ∀ t t', R t t' → f t' ≤ f t)
    {children children' : List (Child ω σ)} (h : List.Forall₂ (Child.Rel R) children children') :
    loadBy f children' ≤ loadBy f children := by
  induction h with
  | nil => exact le_refl _
  | cons hc _ ih =>
      cases hc with
      | mk ht => exact add_le_add (hR _ _ ht) ih
      | absent => exact ih

theorem RelOnce.loadBy_lt {R S : Task ω σ → Task ω σ → Prop} (hR : ∀ t t', R t t' → f t' ≤ f t)
    (hS : ∀ t t', S t t' → f t' < f t) {children children' : List (Child ω σ)}
    (h : RelOnce R S children children') : loadBy f children' < loadBy f children := by
  induction h with
  | here hs hrest => exact add_lt_add_of_lt_of_le (hS _ _ hs) (loadBy_le hR hrest)
  | later hc _ ih =>
      cases hc with
      | mk ht => exact add_lt_add_of_le_of_lt (hR _ _ ht) ih
      | absent => exact ih

end Child

namespace Task

theorem load_apply_eq_zero : ∀ {levels n : Nat} (t : Task ω σ), levels ≤ n →
    ofColex (t.load levels) n = 0
  | 0, _, _, _ => rfl
  | levels + 1, n, .branch _ _ children, hle =>
      Child.loadBy_apply_eq_zero fun t => load_apply_eq_zero t (Nat.le_of_succ_le hle)
  | levels + 1, n, .value _, hle => Finsupp.single_eq_of_ne (by omega)
  | levels + 1, n, .failed _, hle => Finsupp.single_eq_of_ne (by omega)
  | levels + 1, n, .unstarted _, hle => Finsupp.single_eq_of_ne (by omega)
  | levels + 1, n, .waiting _ _, hle => Finsupp.single_eq_of_ne (by omega)

theorem single_lt_single (levels : Nat) {rounds rounds' : Nat} (hlt : rounds < rounds') :
    toColex (Finsupp.single levels rounds) < toColex (Finsupp.single levels rounds') := by
  refine Finsupp.Colex.lt_iff.mpr ⟨levels, ?_, ?_⟩
  · intro n hn
    exact (Finsupp.single_eq_of_ne hn.ne').trans (Finsupp.single_eq_of_ne hn.ne').symm
  · simpa using hlt

/-- A task that waits for nothing weighs less than one that does. -/
theorem load_lt_single {t : Task ω σ} (h : t.delay = 0) (levels rounds : Nat) :
    t.load (levels + 1) < toColex (.single levels (rounds + 1)) := by
  cases t with
  | value _ => exact single_lt_single levels (Nat.succ_pos rounds)
  | failed _ => exact single_lt_single levels (Nat.succ_pos rounds)
  | unstarted _ => cases h
  | waiting _ _ => cases h
  | branch shape turns children =>
      have hzero : ∀ n, levels ≤ n → ofColex (Child.loadBy (Task.load levels) children) n = 0 :=
        fun n hle => Child.loadBy_apply_eq_zero fun t => load_apply_eq_zero t hle
      refine Finsupp.Colex.lt_iff.mpr ⟨levels, ?_, ?_⟩
      · intro n hn
        exact (hzero n hn.le).trans (Finsupp.single_eq_of_ne hn.ne').symm
      · show ofColex (Child.loadBy (Task.load levels) children) levels <
          Finsupp.single levels (rounds + 1) levels
        rw [hzero levels (le_refl levels), Finsupp.single_eq_same]
        exact Nat.succ_pos rounds

end Task

/-! ## Turns for all -/

/-- Every unfinished child gets a turn, at all nodes. -/
inductive Task.Attended : Task ω σ → Prop
  | value (json : Json) : Attended (.value json)
  | failed (error : ResponseError) : Attended (.failed error)
  | unstarted (job : Job ω σ) : Attended (.unstarted job)
  | waiting (rounds : Nat) (call : Call ω σ) : Attended (.waiting rounds call)
  | branch {shape : Shape ω σ} {turns : Turns} {children : List (Child ω σ)} :
      turns.Covers children → (∀ position t, .mk position t ∈ children → Attended t) →
      Attended (.branch shape turns children)

theorem Child.Fresh.attended {path : Path} {position : Position} {t : Task ω σ}
    (h : (Child.mk position t).Fresh path) : t.Attended := by
  cases h with
  | typename key name => exact .value _
  | job _ => exact .unstarted _

namespace Scope

theorem attended_objectTask (scope : Scope ω σ) (site : Site ω σ) (selections : List Selection) :
    (scope.objectTask site selections).Attended := by
  refine .branch (scope.covers_turns _) ?_
  intro position t hmem
  exact (scope.fresh_fieldChildren site selections _ hmem).attended

/-- What completion leaves waits for nothing, and all of its children get a turn. -/
theorem attended_completeAnswer (scope : Scope ω σ) (group : FieldGroup) (type : TypeRef) (path : Path)
    (answer : Except ResolverFailure (Resolved ω)) :
    (scope.completeAnswer group type path answer).Attended ∧
      (scope.completeAnswer group type path answer).delay = 0 := by
  have hc := scope.completes_completeAnswer group type path answer
  generalize scope.completeAnswer group type path answer = t at hc
  cases hc with
  | failed fault => exact ⟨.failed _, rfl⟩
  | null _ => exact ⟨.value _, rfl⟩
  | scalar _ _ _ _ => exact ⟨.value _, rfl⟩
  | enum _ _ _ => exact ⟨.value _, rfl⟩
  | object _ _ _ => exact ⟨scope.attended_objectTask _ _, rfl⟩
  | @list _ item items _ _ =>
      refine ⟨.branch ?_ ?_, rfl⟩
      · have hcovers := scope.covers_turns (itemChildren group item path 0 items)
        rwa [length_itemChildren] at hcovers
      · intro position t hmem
        exact (fresh_itemChildren _ _ _ _ _ hmem).attended

variable {scope : Scope ω σ} {log : List (Event ω)}

theorem Begins.attended {job : Job ω σ} {t : Task ω σ} (h : scope.Begins log job t) :
    t.Attended ∧ ∀ levels, t.load (levels + 1) < (Task.unstarted job).load (levels + 1) := by
  cases h with
  | item group type path answer =>
      obtain ⟨hattended, hdelay⟩ := scope.attended_completeAnswer group type path answer
      exact ⟨hattended, fun levels => Task.load_lt_single hdelay levels _⟩
  | refused _ => exact ⟨.failed _, fun levels => Task.load_lt_single rfl levels _⟩
  | answered _ _ =>
      obtain ⟨hattended, hdelay⟩ := scope.attended_completeAnswer _ _ _ _
      exact ⟨hattended, fun levels => Task.load_lt_single hdelay levels _⟩
  | waiting _ hres hsusp =>
      refine ⟨.waiting _ _, fun levels => Task.single_lt_single levels ?_⟩
      simp [Task.delay, Job.suspension, hres, hsusp]

theorem Resumes.attended {call : Call ω σ} {t : Task ω σ} (h : scope.Resumes log call t) :
    t.Attended ∧ ∀ levels, t.load (levels + 1) < (Task.waiting 0 call).load (levels + 1) := by
  obtain ⟨answer, _, rfl⟩ := h
  obtain ⟨hattended, hdelay⟩ := scope.attended_completeAnswer _ _ _ answer
  exact ⟨hattended, fun levels => Task.load_lt_single hdelay levels 0⟩

/-! ## Rounds -/

/-- What a round makes of a task: its load does not grow, it stays finished if it is, and its children
go on getting their turns. -/
structure Wanes (levels : Nat) (t t' : Task ω σ) : Prop where
  load : t'.load levels ≤ t.load levels
  finished : t.outcome? ≠ none → t'.outcome? ≠ none
  attended : t.Attended → t'.Attended

theorem outcomes?_ne_none_of_forall₂ {levels : Nat} {children children' : List (Child ω σ)}
    (h : List.Forall₂ (Child.Rel (Wanes levels)) children children') :
    Child.outcomes? children ≠ none → Child.outcomes? children' ≠ none := by
  induction h with
  | nil => exact id
  | cons hc _ ih =>
      cases hc with
      | absent => exact ih
      | mk ht =>
          intro hne
          obtain ⟨os, hos⟩ := Option.ne_none_iff_exists'.mp hne
          obtain ⟨o, os', ho, hos', -⟩ := Child.outcomes?_mk_cons.mp hos
          obtain ⟨o', ho'⟩ := Option.ne_none_iff_exists'.mp
            (ht.finished (by rw [ho]; exact Option.some_ne_none o))
          obtain ⟨os'', hos''⟩ := Option.ne_none_iff_exists'.mp
            (ih (by rw [hos']; exact Option.some_ne_none os'))
          rw [Child.outcomes?_mk_cons.mpr ⟨o', os'', ho', hos'', rfl⟩]
          exact Option.some_ne_none _

theorem roundRel_wanes (scope : Scope ω σ) (log : List (Event ω)) :
    scope.RoundRel log Wanes where
  refl _ := ⟨le_refl _, id, id⟩
  trans _ _ _ hab hbc :=
    ⟨hbc.load.trans hab.load, hbc.finished ∘ hab.finished, hbc.attended ∘ hab.attended⟩
  begun h := ⟨(h.attended.2 _).le, fun hne => absurd rfl hne, fun _ => h.attended.1⟩
  waited := ⟨(Task.single_lt_single _ (Nat.lt_succ_self _)).le, id, fun _ => .waiting _ _⟩
  resumed h := ⟨(h.attended.2 _).le, fun hne => absurd rfl hne, fun _ => h.attended.1⟩
  branched {levels shape turns turns' children children'} h hcovers := by
    refine ⟨Child.loadBy_le (fun _ _ ht => ht.load) h, ?_, ?_⟩
    · intro hne hnone
      refine outcomes?_ne_none_of_forall₂ h ?_ (Option.map_eq_none_iff.mp hnone)
      exact fun hnone' => hne (Option.map_eq_none_iff.mpr hnone')
    · rintro (_ | _ | _ | _ | ⟨hcov, hall⟩)
      refine .branch (hcovers hcov) ?_
      intro position t' hmem'
      obtain ⟨t, hmem, ht⟩ := Child.exists_mk_of_forall₂_right h hmem'
      exact ht.attended (hall position t hmem)

/-- What a round makes of an unfinished task. -/
structure Lightens (levels : Nat) (t t' : Task ω σ) : Prop extends Wanes levels t t' where
  lighter : t'.load levels < t.load levels

theorem stepsStrictly_of_lighter {levels : Nat}
    (h : ∀ t : Task ω σ, t.Attended → t.outcome? = none → ¬ t.Cut levels →
      (scope.round levels t).Ensures log (fun t' => t'.load levels < t.load levels)) :
    Task.StepsStrictly log Task.Attended (fun t => ¬ t.Cut levels) (Wanes levels) (Lightens levels)
      (scope.round levels) := by
  have hR := scope.roundRel_wanes log
  exact {
    refl := hR.refl
    trans := hR.trans
    strict_weak := fun a b c hab hbc =>
      ⟨hR.trans a b c hab.toWanes hbc, hbc.load.trans_lt hab.lighter⟩
    weak_strict := fun a b c hab hbc =>
      ⟨hR.trans a b c hab hbc.toWanes, hbc.lighter.trans_le hab.load⟩
    keeps := fun _ _ ht => ht.attended
    finished := fun _ _ ht _ => ht.finished
    weak := hR.round levels
    strict := fun t hgood hout hready =>
      ((hR.round levels t).and (h t hgood hout hready)).imp fun _ ht => ⟨ht.1, ht.2⟩ }

/-- A round takes something off the load of every unfinished task, unless work stands below the
levels. -/
theorem lighter_round (scope : Scope ω σ) (log : List (Event ω)) :
    ∀ levels, Task.StepsStrictly log Task.Attended (fun t => ¬ t.Cut levels) (Wanes levels)
      (Lightens levels) (scope.round levels)
  | 0 => stepsStrictly_of_lighter fun _ _ hout hcut => absurd hout hcut
  | levels + 1 => by
      have hR := scope.roundRel_wanes log
      have below := hR.ensures_stepChildren (hR.round levels)
      refine stepsStrictly_of_lighter ?_
      intro t hattended hout hcut
      cases t with
      | value _ => cases hout
      | failed _ => cases hout
      | unstarted job =>
          refine (scope.ensures_begin job).bind ?_
          intro t hbegins
          exact (below t).imp fun t' hwanes => hwanes.load.trans_lt (hbegins.attended.2 levels)
      | waiting rounds call =>
          cases rounds with
          | zero =>
              refine (scope.ensures_resume call).bind ?_
              intro t hresumes
              exact (below t).imp fun t' hwanes => hwanes.load.trans_lt (hresumes.attended.2 levels)
          | succ rounds => exact Action.ensures_pure (Task.single_lt_single _ (Nat.lt_succ_self _))
      | branch shape turns children =>
          obtain _ | _ | _ | _ | ⟨hcov, hall⟩ := hattended
          have hchildren : ∀ position t, .mk position t ∈ children →
              t.Attended ∧ (t.outcome? = none → ¬ t.Cut levels) := fun position t hmem =>
            ⟨hall position t hmem, fun _ ht => hcut ⟨position, t, hmem, ht⟩⟩
          refine (Turns.ensures_step_once (lighter_round scope log levels) turns hcov hchildren
            (Option.map_eq_none_iff.mp hout)).bind ?_
          intro r honce
          exact Action.ensures_pure
            (honce.loadBy_lt (fun _ _ ht => ht.load) (fun _ _ ht => ht.lighter))

/-! ## Operations -/

/-- A round of the fields of a mutation takes something off their load, unless it finishes them.  The
fields behind one that passes a null on are dropped with their loads. -/
theorem lighter_of_serially {levels : Nat} {fields fields' : List (Child ω σ)}
    (h : Child.Serially (fun t t' => Wanes levels t t' ∧
      (t.Attended → t.outcome? = none → ¬ t.Cut levels → Lightens levels t t')) fields fields')
    (hall : ∀ position t, .mk position t ∈ fields → t.Attended)
    (hcut : ∀ position t, .mk position t ∈ fields → ¬ t.Cut levels) :
    (∀ position t, .mk position t ∈ fields' → t.Attended) ∧
      Child.loadBy (Task.load levels) fields' ≤ Child.loadBy (Task.load levels) fields ∧
      (Child.outcomes? fields' = none →
        Child.loadBy (Task.load levels) fields' < Child.loadBy (Task.load levels) fields) := by
  induction h with
  | nil => exact ⟨hall, le_refl _, fun hnone => by cases hnone⟩
  | @wait c c' later hc hf =>
      cases hc with
      | absent => cases hf
      | @mk position t t' ht =>
          obtain ⟨hwanes, hlightens⟩ := ht
          have hout : t.outcome? = none := by
            by_contra hne
            rw [Child.isFinished, Option.isSome_iff_ne_none.mpr (hwanes.finished hne)] at hf
            cases hf
          have hless := (hlightens (hall _ _ List.mem_cons_self) hout
            (hcut _ _ List.mem_cons_self)).lighter
          have hlt : Child.loadBy (Task.load levels) (.mk position t' :: later) <
              Child.loadBy (Task.load levels) (.mk position t :: later) :=
            add_lt_add_of_lt_of_le hless (le_refl _)
          refine ⟨?_, hlt.le, fun _ => hlt⟩
          intro position' s hmem
          rcases List.mem_cons.mp hmem with heq | hmem
          · cases heq
            exact hwanes.attended (hall _ _ List.mem_cons_self)
          · exact hall _ _ (List.mem_cons_of_mem _ hmem)
  | @stop c c' later hc hf _ =>
      obtain ⟨os, hos⟩ := Child.isFinished_iff.mp hf
      refine ⟨?_, ?_, fun hnone => by rw [hos] at hnone; cases hnone⟩
      · intro position t' hmem
        obtain rfl := List.mem_singleton.mp hmem
        cases hc with
        | mk ht => exact ht.1.attended (hall _ _ List.mem_cons_self)
      · have hzero : 0 ≤ Child.loadBy (Task.load levels) later := zero_le
        cases hc with
        | absent => exact hzero
        | mk ht => exact add_le_add ht.1.load hzero
  | @next c c' later later' hc hf _ _ ih =>
      obtain ⟨hattended, hle, hlt⟩ := ih
        (fun position t hmem => hall position t (List.mem_cons_of_mem _ hmem))
        (fun position t hmem => hcut position t (List.mem_cons_of_mem _ hmem))
      obtain ⟨own, hown⟩ := Child.isFinished_iff.mp hf
      have hout : Child.outcomes? (c' :: later') = none → Child.outcomes? later' = none := by
        rw [Child.outcomes?_cons, hown, Option.bind_some, Option.map_eq_none_iff]
        exact id
      cases hc with
      | absent =>
          refine ⟨?_, hle, fun hnone => hlt (hout hnone)⟩
          intro position t hmem
          rcases List.mem_cons.mp hmem with heq | hmem
          · cases heq
          · exact hattended position t hmem
      | mk ht =>
          refine ⟨?_, add_le_add ht.1.load hle,
            fun hnone => add_lt_add_of_le_of_lt ht.1.load (hlt (hout hnone))⟩
          intro position t hmem
          rcases List.mem_cons.mp hmem with heq | hmem
          · cases heq
            exact ht.1.attended (hall _ _ List.mem_cons_self)
          · exact hattended position t hmem

end Scope

/-- The load of the work on an operation, down to the given number of levels below its fields. -/
noncomputable def Work.load (levels : Nat) : Work ω σ → Colex (ℕ →₀ ℕ)
  | .query t => t.load (levels + 1)
  | .mutation _ fields => Child.loadBy (Task.load levels) fields

def Work.Attended : Work ω σ → Prop
  | .query t => t.Attended
  | .mutation _ fields => ∀ position t, Child.mk position t ∈ fields → t.Attended

namespace Scope

variable {scope : Scope ω σ} {log : List (Event ω)} {levels : Nat}

theorem attended_operationWork (scope : Scope ω σ) (kind : OperationKind) (site : Site ω σ)
    (selections : List Selection) : (scope.operationWork kind site selections).Attended := by
  cases kind with
  | query => exact scope.attended_objectTask site selections
  | subscription => exact scope.attended_objectTask site selections
  | mutation =>
      intro position t hmem
      exact (scope.fresh_fieldChildren site selections _ hmem).attended

/-- A round takes something off the load of an operation that it does not finish, unless work stands
below the levels. -/
theorem lighter_workRound {work : Work ω σ} (hattended : work.Attended) (hcut : ¬ work.Cut levels) :
    (scope.workRound levels work).Ensures log (fun work' => work'.Attended ∧
      (work'.outcome? = none → work'.load levels < work.load levels)) := by
  cases work with
  | query t =>
      refine ((lighter_round scope log (levels + 1)).ensures t).bind ?_
      rintro t' ⟨hwanes, hlightens⟩
      refine Action.ensures_pure ⟨hwanes.attended hattended, ?_⟩
      intro hout
      have hlive : t.outcome? = none := by
        by_contra hne
        exact hwanes.finished hne hout
      exact (hlightens hattended hlive hcut).lighter
  | mutation site fields =>
      refine (Child.ensures_stepSerial (lighter_round scope log levels).ensures fields).bind ?_
      intro fields' hserially
      obtain ⟨hall, _, hlt⟩ := lighter_of_serially hserially hattended
        fun position t hmem ht => hcut ⟨position, t, hmem, ht⟩
      exact Action.ensures_pure ⟨hall, fun hout => hlt (Option.map_eq_none_iff.mp hout)⟩

end Scope

/-! ## Runs -/

namespace Prepared

variable {prepared : Prepared ω σ}

/-- Work either comes to a response, or stands below the levels at some time. -/
theorem responds_or_cut (work : Work ω σ) (state : σ) (hattended : work.Attended)
    (hcut : ¬ work.Cut prepared.levels) :
    ∃ limit, 0 < limit ∧ ((∃ response, (prepared.runOn limit work state).ending = .responded response) ∨
      ∃ work', (prepared.runOn limit work state).work = some work' ∧ work'.Cut prepared.levels) := by
  -- The induction is on the load, which each further round makes smaller.
  induction hload : work.load prepared.levels using WellFoundedLT.induction generalizing work state with
  | ind load ih =>
      obtain ⟨hattended', hlt⟩ := prepared.scope.lighter_workRound hattended hcut state
        (List.Subset.refl _)
      cases hout : ((prepared.scope.workRound prepared.levels work).run state).1.outcome? with
      | some o =>
          refine ⟨1, Nat.one_pos, .inl ⟨o.toResponse, ?_⟩⟩
          simp only [runOn, hout]
      | none =>
          by_cases hcut' : ((prepared.scope.workRound prepared.levels work).run state).1.Cut
              prepared.levels
          · refine ⟨1, Nat.one_pos, .inr ⟨_, ?_, hcut'⟩⟩
            simp only [runOn, hout, Run.precededBy]
          · obtain ⟨limit, _, hends⟩ := ih _ (hload ▸ hlt hout) _
              ((prepared.scope.workRound prepared.levels work).run state).2.1 hattended' hcut' rfl
            refine ⟨limit + 1, Nat.succ_pos limit, ?_⟩
            simpa only [runOn, hout, Run.precededBy] using hends

end Prepared

/-! ## Requests -/

namespace Schema

variable {schema : Schema ω σ} {request : Request ω} {operation : Operation}
  {root : ObjectType ω σ} {prepared : Prepared ω σ}

theorem Prepares.exists_workUnfolds_start (hp : schema.Prepares request operation root prepared) :
    ∃ courses, prepared.scope.WorkUnfolds 0 prepared.levels prepared.start prepared.start courses := by
  obtain ⟨courses, hcourses, _⟩ := prepared.scope.exists_workUnfolds_operationWork
    prepared.levels operation.kind ⟨root, request.root, []⟩ operation.selections
  exact ⟨courses, hp.start_eq ▸ hcourses⟩

/-- The fields of the operation are not too deep for any request. -/
theorem Prepares.not_cut_start (hp : schema.Prepares request operation root prepared) :
    ¬ prepared.start.Cut prepared.levels := by
  intro hcut
  obtain ⟨courses, hcourses⟩ := hp.exists_workUnfolds_start
  obtain ⟨job, hjob, hdeep⟩ := hp.exists_deep_of_cut hcourses hcut
  obtain ⟨group, definition, _, _, rfl⟩ := hp.exists_of_start_holds hjob
  have hone : (Job.field ⟨root, request.root, []⟩ group definition).path.fieldDepth = 1 :=
    Path.fieldDepth_key [] group.key
  omega

/-- An execution responds after some rounds, or work stands deeper than the request allows. -/
theorem Prepares.responds_or_deep (hp : schema.Prepares request operation root prepared) (state : σ) :
    (∃ rounds response, (schema.execute { request with rounds } state).ending = .responded response) ∨
      ∃ rounds work job, (schema.execute { request with rounds } state).work = some work ∧
        work.Holds job ∧ request.depth < job.path.fieldDepth := by
  have hattended : prepared.start.Attended :=
    hp.start_eq ▸ prepared.scope.attended_operationWork _ _ _
  obtain ⟨limit, hpos, hends⟩ := prepared.responds_or_cut prepared.start state hattended hp.not_cut_start
  have hexecute := hp.execute_within hpos state
  rcases hends with ⟨response, hresponse⟩ | ⟨work, hwork, hcut⟩
  · exact .inl ⟨limit, response, by rw [hexecute, hresponse]⟩
  · obtain ⟨courses, hfollows, _⟩ := Prepared.follows_runOn hp.start_eq limit state
    obtain ⟨work', hwork', hunfolds⟩ := hfollows.unfolds
    obtain rfl : work = work' := Option.some.inj (hwork.symm.trans hwork')
    obtain ⟨job, hjob, hdeep⟩ := hp.exists_deep_of_cut hunfolds hcut
    exact .inr ⟨limit, work, job, by rw [hexecute, hwork], hjob, by omega⟩

end Schema

/-- The end of an execution: with so many rounds or more, and the depth of its document or more, it is
always the same run, which was refused or responds. -/
structure Schema.EndsWithin (schema : Schema ω σ) (request : Request ω) (state : σ) (enough : Nat)
    (run : Run ω σ) : Prop where
  execute_eq : ∀ depth rounds, request.document.depthBound ≤ depth → enough ≤ rounds →
    schema.execute { request with depth, rounds } state = run
  length_le : run.rounds.length ≤ enough
  refused : ∀ reason, schema.prepare request = .error reason → run.ending = .refused reason
  responded : ∀ prepared, schema.prepare request = .ok prepared →
    ∃ response, run.ending = .responded response

namespace Schema

variable {schema : Schema ω σ} {request : Request ω} {operation : Operation}
  {root : ObjectType ω σ} {prepared : Prepared ω σ}

/-- A run that responds with the depth of an acyclic document is the end of the execution. -/
theorem Prepares.endsWithin (hp : schema.Prepares request operation root prepared)
    (hacyclic : request.document.Acyclic) (hdepth : request.depth = request.document.depthBound)
    {state : σ} {limit : Nat} {response : Response}
    (h : (prepared.runOn limit prepared.start state).ending = .responded response) :
    schema.EndsWithin request state (prepared.runOn limit prepared.start state).rounds.length
      (prepared.runOn limit prepared.start state) where
  execute_eq depth rounds hle henough := by
    have hpos : 0 < rounds := by
      by_contra hzero
      obtain rfl : rounds = 0 := by omega
      have hrun := (Prepared.runOn_of_responded h 0).2 henough
      rw [← hrun] at h
      cases h
    have hdeeper : schema.execute { request with depth, rounds } state =
        schema.execute { request with rounds } state :=
      schema.execute_deeper { request with rounds } hacyclic (Nat.le_of_eq hdepth.symm)
        (hdepth ▸ hle) state
    rw [hdeeper, hp.execute_within hpos state]
    exact (Prepared.runOn_of_responded h rounds).2 henough
  length_le := Nat.le_refl _
  refused reason hreason := by
    rw [hp.prepare_eq] at hreason
    cases hreason
  responded _ _ := ⟨response, h⟩

/-- Whatever an execution leaves, it unfolded from the work that it began with. -/
theorem Prepares.exists_unfolds_of_work (hp : schema.Prepares request operation root prepared)
    {state : σ} {work : Work ω σ} (hwork : (schema.execute request state).work = some work) :
    ∃ now courses, prepared.scope.WorkUnfolds now prepared.levels prepared.start work courses := by
  cases hrounds : request.rounds with
  | zero => simp [execute, hrounds] at hwork
  | succ limit =>
      obtain ⟨courses, hfollows, _⟩ := Prepared.follows_runOn hp.start_eq (limit + 1) state
      obtain ⟨work', hwork', hunfolds⟩ := hfollows.unfolds
      rw [execute, hrounds, hp.prepare_eq] at hwork
      obtain rfl : work' = work := Option.some.inj (hwork'.symm.trans hwork)
      exact ⟨_, courses, hunfolds⟩

/-- Nothing that is left of an execution is deeper than an acyclic document. -/
theorem fieldDepth_le_of_execute (hacyclic : request.document.Acyclic) {depth rounds : Nat}
    {state : σ} {work : Work ω σ} {job : Job ω σ}
    (hwork : (schema.execute { request with depth, rounds } state).work = some work)
    (hjob : work.Holds job) : job.path.fieldDepth ≤ request.document.depthBound := by
  cases hprepare : schema.prepare { request with depth, rounds } with
  | error reason => cases rounds <;> simp [execute, hprepare] at hwork
  | ok prepared =>
      obtain ⟨operation, root, hp⟩ := schema.exists_of_prepare hprepare
      obtain ⟨now, courses, hunfolds⟩ := hp.exists_unfolds_of_work hwork
      exact hp.fieldDepth_le hacyclic hunfolds hjob

theorem exists_endsWithin (schema : Schema ω σ) (hacyclic : request.document.Acyclic) (state : σ) :
    ∃ enough run, schema.EndsWithin request state enough run := by
  have hsame := schema.prepare_depth request request.document.depthBound
  cases hprepare : schema.prepare request with
  | error reason =>
      refine ⟨1, ⟨.refused reason, none, state, [[]]⟩, ?_, Nat.le_refl 1, ?_, ?_⟩
      · intro depth rounds _ henough
        obtain ⟨limit, rfl⟩ := Nat.exists_eq_add_of_le' henough
        have herror : schema.prepare { request with depth, rounds := limit + 1 } = .error reason :=
          (schema.prepare_depth request depth).trans (by rw [hprepare]; rfl)
        rw [execute]
        simp only [herror]
      · intro reason' hreason
        rw [hprepare] at hreason
        cases hreason
        rfl
      · intro prepared hok
        rw [hprepare] at hok
        cases hok
  | ok prepared =>
      rw [hprepare] at hsame
      obtain ⟨operation, root, hp⟩ := schema.exists_of_prepare hsame
      rcases hp.responds_or_deep state with ⟨rounds, response, hresponse⟩ | ⟨rounds, work, job, h⟩
      · cases rounds with
        | zero => cases hresponse
        | succ limit =>
            rw [hp.execute_within (Nat.succ_pos limit) state] at hresponse
            have hends := hp.endsWithin hacyclic rfl hresponse
            exact ⟨_, _, hends.execute_eq, hends.length_le,
              fun reason hreason => (by rw [hprepare] at hreason; cases hreason),
              fun _ _ => ⟨response, hresponse⟩⟩
      · obtain ⟨hwork, hjob, hdeep⟩ := h
        have hle : job.path.fieldDepth ≤ request.document.depthBound :=
          fieldDepth_le_of_execute hacyclic hwork hjob
        exact absurd hdeep (Nat.not_lt_of_le hle)

/-- Executions of acyclic documents end, whatever the types are and the resolvers return. -/
theorem execute_terminates (hacyclic : request.document.Acyclic) (state : σ) :
    (∃ enough run, schema.EndsWithin request state enough run) ∧
    (∀ depth rounds work job,
      (schema.execute { request with depth, rounds } state).work = some work → work.Holds job →
        job.path.fieldDepth ≤ request.document.depthBound) :=
  ⟨schema.exists_endsWithin hacyclic state, fun _ _ _ _ => fieldDepth_le_of_execute hacyclic⟩

end Schema

/-! ## Friends of friends -/

def friendsQuery : ObjectType Unit Unit where
  name := "Query"
  fields := [
    ("person", { name := "person", type := .named "Person", resolver? := some (.after 1 (.object (.host ()))) })]

def friendsPerson : ObjectType Unit Unit where
  name := "Person"
  fields := [
    ("friend", { name := "friend", type := .named "Person", resolver? := some (.after 1 (.object (.host ()))) }),
    ("age", { name := "age", type := .named "Int", resolver? := some (.after 1 (.leaf (.int 7))) })]

/-- Persons all have a friend, without end. -/
def friendsSchema : Schema Unit Unit where
  queryType := "Query"
  mutationType := none
  types := BuiltIn.scalars.map (fun t => (t.name, .scalar t)) ++
    [("Query", .object friendsQuery), ("Person", .object friendsPerson)]
  possible := []

/-- Asks for the age of a friend of a friend, by a fragment. -/
def friendsRequest : Request Unit where
  document := {
    operations := [.plain .query [.plain "person" [.spread ⟨"Friends", [], none⟩]]]
    fragments := [("Friends",
      ⟨"Friends", "Person", [], [.plain "friend" [.plain "friend" [.plain "age" []]]], none⟩)] }
  root := .json []

theorem friendsRequest_acyclic : friendsRequest.document.Acyclic := by
  have hfree : Selection.SpreadFree [.plain "friend" [.plain "friend" [.plain "age" []]]] := by
    intro other h
    cases h with
    | later h => cases h
    | field h =>
        cases h with
        | later h => cases h
        | field h =>
            cases h with
            | later h => cases h
            | field h => cases h
  intro name fragment hget
  have hentry := OrderedMap.mem_of_get? hget
  simp only [friendsRequest, List.mem_cons, List.not_mem_nil, or_false, Prod.mk.injEq] at hentry
  obtain ⟨rfl, rfl⟩ := hentry
  exact hfree.not_reaches

/-- Four calls follow on one another, each suspended for a round, and then nothing is left to ask. -/
theorem friendsRequest_terminates :
    friendsRequest.document.Acyclic ∧
    (∃ enough run, friendsSchema.EndsWithin friendsRequest () enough run) ∧
    (friendsSchema.execute friendsRequest ()).rounds.length = 5 := by
  refine ⟨friendsRequest_acyclic, (Schema.execute_terminates friendsRequest_acyclic ()).1, ?_⟩
  decide +kernel

end GraphQLEngine
