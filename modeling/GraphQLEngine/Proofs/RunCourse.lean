/-
Runs follow courses.

`Scope.WorkUnfolds` carries the unfolding of tasks over to operations: the
fields of a query have one course together, those of a mutation one course
after the other.  Every run of a request follows such courses
(`Prepared.follows_runOn`): its events, with the rounds in which they occur, are
those of the courses, and its work is what the courses led to.

This holds for runs that are cut off, too, and for any width.
-/
import GraphQLEngine.Proofs.Unfolding

namespace GraphQLEngine

variable {ω σ : Type}

/-! ## Fields one after the other -/

/-- What has become of the fields of a mutation, and the courses of those that began.  A course begins
in the round in which the one before has come to its end. -/
inductive Scope.UnfoldsInTurn (scope : Scope ω σ) (now levels : Nat) :
    Nat → List (Child ω σ) → List (Child ω σ) → List (Course ω) → Prop
  /-- None of the fields has begun. -/
  | fresh {start : Nat} {fields : List (Child ω σ)} : (scope.width = none → start = now + 1) →
      UnfoldsInTurn scope now levels start fields fields []
  | nil {start : Nat} : (scope.width = none → start ≤ now) →
      UnfoldsInTurn scope now levels start [] [] []
  | absent {start : Nat} {key : Name} {fields fields' : List (Child ω σ)}
      {courses : List (Course ω)} :
      UnfoldsInTurn scope now levels start fields fields' courses →
      UnfoldsInTurn scope now levels start (.absent key :: fields) (.absent key :: fields') courses
  | wait {start : Nat} {position : Position} {t t' : Task ω σ} {later : List (Child ω σ)}
      {course : Course ω} : (scope.width = none → start ≤ now) →
      scope.Unfolds now levels start t t' course → t'.outcome? = none →
      UnfoldsInTurn scope now levels start (.mk position t :: later) (.mk position t' :: later)
        [course]
  /-- A field has come to its end in some round, and passes a null on. -/
  | stop {start before : Nat} {position : Position} {t t' t'' : Task ω σ} {later : List (Child ω σ)}
      {course : Course ω} {o : Outcome} : (scope.width = none → start + course.span ≤ now) →
      scope.Unfolds before levels start t t' course → t'.outcome? = some o → t''.outcome? = some o →
      (o.settle position.type).value = none →
      UnfoldsInTurn scope now levels start (.mk position t :: later) [.mk position t''] [course]
  | next {start before : Nat} {position : Position} {t t' t'' : Task ω σ}
      {later later' : List (Child ω σ)} {course : Course ω} {courses : List (Course ω)} {o : Outcome} :
      (scope.width = none → start + course.span ≤ now) →
      scope.Unfolds before levels start t t' course → t'.outcome? = some o → t''.outcome? = some o →
      (o.settle position.type).value ≠ none →
      UnfoldsInTurn scope now levels (start + course.span) later later' courses →
      UnfoldsInTurn scope now levels start (.mk position t :: later) (.mk position t'' :: later')
        (course :: courses)

/-- What fields that were left so have become in a round, after the timeline so far.  Without a limit
to the width, they are finished no earlier than their courses demand. -/
def Scope.ContinuesInTurn (scope : Scope ω σ) (now levels start : Nat) (fields before : List (Child ω σ))
    (timeline : List (Nat × Event ω)) (after : List (Child ω σ)) (events : List (Event ω)) : Prop :=
  ∃ courses, scope.UnfoldsInTurn (now + 1) levels start fields after courses ∧
    (courses.flatMap Course.timeline).Perm (timeline ++ events.map (now + 1, ·)) ∧
    (scope.width = none → Child.outcomes? before = none → Child.outcomes? after ≠ none →
      now + 1 ≤ start + Course.spans courses)

theorem Action.Quietly.reports {α : Type} {P : α → Prop} {action : Action ω σ α}
    (h : action.Quietly P) : action.Reports (fun a es => P a ∧ es = []) := by
  intro state
  obtain ⟨a, hrun, hp⟩ := h state
  rw [hrun]
  exact ⟨hp, rfl⟩

namespace Scope

variable {scope : Scope ω σ} {now levels start : Nat}

/-- A round of the field that is at work, and of the later ones if it finishes. -/
theorem reports_stepFirst {position : Position} {t t' : Task ω σ} {later : List (Child ω σ)}
    {course : Course ω} (h : scope.Unfolds now levels start t t' course)
    (htime : scope.width = none → start ≤ now + 1 ∧ (t'.outcome? ≠ none → start = now + 1))
    (hlater : ∀ start', (scope.width = none → start' = now + 1) →
      (Child.stepSerial (scope.round levels) later).Reports
        (scope.ContinuesInTurn now levels start' later later [])) :
    (Child.stepSerial (scope.round levels) (.mk position t' :: later)).Reports
      (scope.ContinuesInTurn now levels start (.mk position t :: later) (.mk position t' :: later)
        course.timeline) := by
  have hstep := (scope.keepsUnfolding_round now levels h).and (scope.reports_round_cut levels t')
  refine (Child.reports_step_mk hstep position).bind ?_
  rintro _ es ⟨t'', rfl, ⟨course', hcourse, hgrows⟩, hcut⟩
  cases ho : t''.outcome? with
  | none =>
      have hf : (Child.mk position t'').isFinished = false := by rw [Child.isFinished, ho]; rfl
      simp only [hf, Bool.not_false, if_true]
      refine Action.reports_pure ⟨[course'], .wait (fun hw => (htime hw).1) hcourse ho, ?_, ?_⟩
      · simpa using hgrows.timeline
      · intro _ _ hos
        simp [Child.outcomes?, ho] at hos
  | some o =>
      have hf : (Child.mk position t'').isFinished = true := by rw [Child.isFinished, ho]; rfl
      -- The field finishes in this round, neither earlier nor later than its course demands.
      have hend : scope.width = none → start + course'.span = now + 1 := by
        intro hw
        have hle := hcourse.span_le hw ho (htime hw).1
        have hspan := hgrows.span_le
        cases ho' : t'.outcome? with
        | none =>
            have hlt := h.lt_span hw ho' fun hc => not_cut_of_finished ho (hcut hc)
            omega
        | some _ =>
            have hstart := (htime hw).2 (by rw [ho']; exact Option.some_ne_none _)
            omega
      have hle := fun hw => Nat.le_of_eq (hend hw)
      simp only [hf, Bool.not_true, Bool.false_eq_true, if_false, Child.passesNull_mk ho]
      cases hv : (o.settle position.type).value with
      | none =>
          refine Action.reports_pure ⟨[course'], .stop hle hcourse ho ho hv, ?_, ?_⟩
          · simpa using hgrows.timeline
          · intro hw _ _
            have heq := hend hw
            simp only [Course.spans]
            omega
      | some j =>
          refine (hlater (start + course'.span) hend).bind ?_
          rintro later' es' ⟨courses, hcourses, htimeline, _⟩
          have hv' : (o.settle position.type).value ≠ none := by rw [hv]; exact Option.some_ne_none j
          refine Action.reports_pure ⟨course' :: courses, .next hle hcourse ho ho hv' hcourses, ?_, ?_⟩
          · rw [List.flatMap_cons, List.append_nil, List.map_append, ← List.append_assoc]
            exact hgrows.timeline.append htimeline
          · intro hw _ _
            have heq := hend hw
            simp only [Course.spans]
            omega

/-- A finished field stays as it is. -/
theorem reports_step_finished {t : Task ω σ} {o : Outcome} (h : t.outcome? = some o)
    (position : Position) :
    ((Child.mk position t).step (scope.round levels)).Reports (fun c es =>
      ∃ s, c = .mk position s ∧ s.outcome? = some o ∧ es = []) := by
  have hquiet := scope.round_keepsQuiet levels t (by rw [h]; rfl)
  refine (Child.reports_step_mk hquiet.reports position).imp ?_
  rintro _ _ ⟨s, rfl, hsame, rfl⟩
  exact ⟨s, rfl, Eq.trans hsame h, rfl⟩

/-- After a field that passes a null on, nothing happens. -/
theorem reports_stepStop {before : Nat} {position : Position} {t t' t'' : Task ω σ}
    {later : List (Child ω σ)} {course : Course ω} {o : Outcome}
    (htime : scope.width = none → start + course.span ≤ now)
    (h : scope.Unfolds before levels start t t' course) (ht' : t'.outcome? = some o)
    (ht'' : t''.outcome? = some o) (hv : (o.settle position.type).value = none) :
    (Child.stepSerial (scope.round levels) [.mk position t'']).Reports
      (scope.ContinuesInTurn now levels start (.mk position t :: later) [.mk position t'']
        course.timeline) := by
  refine (reports_step_finished ht'' position).bind ?_
  rintro _ _ ⟨s, rfl, hs, rfl⟩
  have hf : (Child.mk position s).isFinished = true := by rw [Child.isFinished, hs]; rfl
  simp only [hf, Bool.not_true, Bool.false_eq_true, if_false, Child.passesNull_mk hs, hv,
    Option.isNone_none, if_true]
  have hle := fun hw => Nat.le_succ_of_le (htime hw)
  refine Action.reports_pure ⟨[course], .stop hle h ht' hs hv, by simp, ?_⟩
  intro _ hbefore _
  simp [Child.outcomes?, ht''] at hbefore

/-- A field that has come to its end leaves the round to the later ones. -/
theorem reports_stepNext {before : Nat} {position : Position} {t t' t'' : Task ω σ}
    {later later' : List (Child ω σ)} {course : Course ω} {o : Outcome}
    {timeline : List (Nat × Event ω)}
    (htime : scope.width = none → start + course.span ≤ now)
    (h : scope.Unfolds before levels start t t' course) (ht' : t'.outcome? = some o)
    (ht'' : t''.outcome? = some o) (hv : (o.settle position.type).value ≠ none)
    (hlater : (Child.stepSerial (scope.round levels) later').Reports
      (scope.ContinuesInTurn now levels (start + course.span) later later' timeline)) :
    (Child.stepSerial (scope.round levels) (.mk position t'' :: later')).Reports
      (scope.ContinuesInTurn now levels start (.mk position t :: later) (.mk position t'' :: later')
        (course.timeline ++ timeline)) := by
  refine (reports_step_finished ht'' position).bind ?_
  rintro _ _ ⟨s, rfl, hs, rfl⟩
  have hf : (Child.mk position s).isFinished = true := by rw [Child.isFinished, hs]; rfl
  have hn : (o.settle position.type).value.isNone = false := by
    simpa using Option.isSome_iff_ne_none.mpr hv
  simp only [hf, Bool.not_true, Bool.false_eq_true, if_false, Child.passesNull_mk hs, hn]
  refine hlater.bind ?_
  rintro after es ⟨courses, hcourses, htimeline, hdue⟩
  have hle := fun hw => Nat.le_succ_of_le (htime hw)
  refine Action.reports_pure ⟨course :: courses, .next hle h ht' hs hv hcourses, ?_, ?_⟩
  · rw [List.flatMap_cons, List.append_nil, List.append_assoc]
    exact htimeline.append_left _
  · intro hw hbefore hafter
    have hdue' := hdue hw (Child.outcomes?_later_eq_none ht'' hbefore) fun hnone => hafter (by
      rw [Child.outcomes?_cons, hnone]
      simp)
    simp only [Course.spans]
    omega

/-- A round of fields goes on with the courses that they have so far. -/
theorem reports_stepSerial {path : Path} :
    ∀ {fields fields' : List (Child ω σ)} {start : Nat} {courses : List (Course ω)},
      (∀ child ∈ fields, child.Fresh path) →
      scope.UnfoldsInTurn now levels start fields fields' courses →
      (Child.stepSerial (scope.round levels) fields').Reports
        (scope.ContinuesInTurn now levels start fields fields' (courses.flatMap Course.timeline))
  | [], _, _, _, _, .fresh hstart =>
      Action.reports_pure ⟨[], .nil fun hw => Nat.le_of_eq (hstart hw), .nil, fun _ h => by cases h⟩
  | _, _, _, _, _, .nil hstart =>
      Action.reports_pure ⟨[], .nil fun hw => Nat.le_succ_of_le (hstart hw), .nil, fun _ h => by cases h⟩
  | .absent key :: rest, _, _, _, hfresh, .fresh hstart => by
      have hrest := reports_stepSerial (List.forall_mem_cons.mp hfresh).2 (.fresh hstart)
      refine (Child.reports_step_absent key).bind ?_
      rintro _ _ ⟨rfl, rfl⟩
      refine hrest.bind ?_
      rintro after es ⟨courses, hcourses, htimeline, hdue⟩
      exact Action.reports_pure ⟨courses, .absent hcourses, by simpa using htimeline, hdue⟩
  | .absent key :: rest, _, _, _, hfresh, .absent h => by
      have hrest := reports_stepSerial (List.forall_mem_cons.mp hfresh).2 h
      refine (Child.reports_step_absent key).bind ?_
      rintro _ _ ⟨rfl, rfl⟩
      refine hrest.bind ?_
      rintro after es ⟨courses, hcourses, htimeline, hdue⟩
      exact Action.reports_pure ⟨courses, .absent hcourses, by simpa using htimeline, hdue⟩
  | .mk position t :: rest, _, start, _, hfresh, .fresh hstart => by
      obtain ⟨hchild, hrest⟩ := List.forall_mem_cons.mp hfresh
      have hidle : scope.Unfolds now levels start t t .idle := by
        cases hchild with
        | typename key name => exact .value _
        | job _ => exact .unbegun fun hw => .inr (hstart hw)
      exact reports_stepFirst hidle
        (fun hw => ⟨Nat.le_of_eq (hstart hw), fun _ => hstart hw⟩)
        fun start' hstart' => reports_stepSerial hrest (.fresh hstart')
  | .mk position t :: rest, _, _, _, hfresh, .wait hstart h ho => by
      have hrest := (List.forall_mem_cons.mp hfresh).2
      simpa using reports_stepFirst h
        (fun hw => ⟨Nat.le_succ_of_le (hstart hw), fun hne => absurd ho hne⟩)
        fun start' hstart' => reports_stepSerial hrest (.fresh hstart')
  | .mk position t :: rest, _, _, _, _, .stop htime h ht' ht'' hv => by
      simpa using reports_stepStop htime h ht' ht'' hv
  | .mk position t :: rest, _, _, _, hfresh, .next htime h ht' ht'' hv hlater =>
      reports_stepNext htime h ht' ht'' hv
        (reports_stepSerial (List.forall_mem_cons.mp hfresh).2 hlater)

end Scope

/-! ## Operations -/

/-- What has become of the work on an operation, and by which courses. -/
inductive Scope.WorkUnfolds (scope : Scope ω σ) (now levels : Nat) :
    Work ω σ → Work ω σ → List (Course ω) → Prop
  | query {t t' : Task ω σ} {course : Course ω} : scope.Unfolds now (levels + 1) 1 t t' course →
      WorkUnfolds scope now levels (.query t) (.query t') [course]
  | mutation {site : Site ω σ} {fields fields' : List (Child ω σ)} {courses : List (Course ω)} :
      scope.UnfoldsInTurn now levels 1 fields fields' courses →
      WorkUnfolds scope now levels (.mutation site fields) (.mutation site fields') courses

/-- The fields of a mutation are as completion leaves them. -/
def Work.Fresh : Work ω σ → Prop
  | .query _ => True
  | .mutation site fields => ∀ child ∈ fields, child.Fresh site.path

/-- What the work on an operation that was left so has become in a round, after the timeline so far.
Without a limit to the width, it is finished no earlier than its courses demand. -/
def Scope.WorkContinues (scope : Scope ω σ) (now levels : Nat) (start before : Work ω σ)
    (timeline : List (Nat × Event ω)) (after : Work ω σ) (events : List (Event ω)) : Prop :=
  ∃ courses, scope.WorkUnfolds (now + 1) levels start after courses ∧
    (courses.flatMap Course.timeline).Perm (timeline ++ events.map (now + 1, ·)) ∧
    (scope.width = none → before.outcome? = none → after.outcome? ≠ none →
      now + 1 ≤ 1 + Course.spans courses)

namespace Scope

variable {scope : Scope ω σ} {now levels : Nat}

theorem fresh_operationWork (scope : Scope ω σ) (kind : OperationKind) (site : Site ω σ)
    (selections : List Selection) : (scope.operationWork kind site selections).Fresh := by
  match kind with
  | .query => trivial
  | .subscription => trivial
  | .mutation => exact scope.fresh_fieldChildren site selections

/-- Work that has not begun has courses without events. -/
theorem exists_workUnfolds_operationWork (scope : Scope ω σ) (levels : Nat) (kind : OperationKind)
    (site : Site ω σ) (selections : List Selection) :
    ∃ courses, scope.WorkUnfolds 0 levels (scope.operationWork kind site selections)
        (scope.operationWork kind site selections) courses ∧
      courses.flatMap Course.timeline = [] := by
  have hfresh := scope.fresh_fieldChildren site selections
  have hquery : ∃ courses, scope.WorkUnfolds 0 levels (.query (scope.objectTask site selections))
      (.query (scope.objectTask site selections)) courses ∧
        courses.flatMap Course.timeline = [] := by
    have hstart : scope.width = none → 1 = 0 + 1 := fun _ => rfl
    obtain ⟨course, hcourse, hnil⟩ := unfoldsAll_fresh levels hstart hfresh
    refine ⟨[course], .query (.branch (fun hw => turns_of_width_none hw _) hcourse), ?_⟩
    simpa using hnil
  match kind with
  | .query => exact hquery
  | .subscription => exact hquery
  | .mutation => exact ⟨[], .mutation (.fresh fun _ => rfl), rfl⟩

/-- A round of an operation goes on with its courses. -/
theorem reports_workRound {start work : Work ω σ} {courses : List (Course ω)} (hfresh : start.Fresh)
    (h : scope.WorkUnfolds now levels start work courses) :
    (scope.workRound levels work).Reports
      (scope.WorkContinues now levels start work (courses.flatMap Course.timeline)) := by
  cases h with
  | @query t t' course h =>
      have hround := (scope.keepsUnfolding_round now (levels + 1) h).and
        (scope.reports_round_cut (levels + 1) t')
      refine hround.bind ?_
      rintro t'' es ⟨⟨course', hcourse, hgrows⟩, hcut⟩
      refine Action.reports_pure ⟨[course'], .query hcourse, by simpa using hgrows.timeline, ?_⟩
      intro hw hbefore hafter
      obtain ⟨o, ho⟩ := Option.ne_none_iff_exists'.mp hafter
      have hlt := h.lt_span hw hbefore fun hc => not_cut_of_finished ho (hcut hc)
      have hspan := hgrows.span_le
      simp only [Course.spans]
      omega
  | mutation h =>
      refine (reports_stepSerial hfresh h).bind ?_
      rintro fields es ⟨courses', hcourses, htimeline, hdue⟩
      refine Action.reports_pure ⟨courses', .mutation hcourses, by simpa using htimeline, ?_⟩
      intro hw hbefore hafter
      exact hdue hw (Option.map_eq_none_iff.mp hbefore) fun hnone => hafter (by
        rw [Work.outcome?, hnone]
        rfl)

/-- Without a limit to the width, finished fields are as late as their courses demand, and no later. -/
theorem UnfoldsInTurn.spans_le (hw : scope.width = none) {start : Nat}
    {fields fields' : List (Child ω σ)} {courses : List (Course ω)}
    (h : scope.UnfoldsInTurn now levels start fields fields' courses)
    (hos : Child.outcomes? fields' ≠ none) (hle : start ≤ now) :
    start + Course.spans courses ≤ now := by
  induction h with
  | fresh hstart =>
      have heq := hstart hw
      omega
  | nil _ => exact hle
  | absent _ ih => exact ih hos hle
  | wait _ _ ho =>
      rw [Child.outcomes?, ho] at hos
      exact absurd rfl hos
  | stop htime _ _ _ _ => exact htime hw
  | next htime _ _ ho _ _ ih =>
      have hlater := ih (fun hnone => hos (by rw [Child.outcomes?, ho, hnone])) (htime hw)
      simp only [Course.spans]
      omega

theorem WorkUnfolds.spans_le (hw : scope.width = none) {start work : Work ω σ}
    {courses : List (Course ω)} (h : scope.WorkUnfolds now levels start work courses)
    (ho : work.outcome? ≠ none) (hle : 1 ≤ now) : 1 + Course.spans courses ≤ now := by
  cases h with
  | query h =>
      obtain ⟨o, ho⟩ := Option.ne_none_iff_exists'.mp ho
      exact h.span_le hw ho hle
  | mutation h => exact h.spans_le hw (fun hnone => ho (by rw [Work.outcome?, hnone]; rfl)) hle

end Scope

/-! ## Runs -/

/-- The events of rounds with the numbers of the rounds. -/
def numberRounds : Nat → List (List (Event ω)) → List (Nat × Event ω)
  | _, [] => []
  | first, events :: later => events.map (first, ·) ++ numberRounds (first + 1) later

/-- The events of a run with the rounds of their occurrence. -/
def Run.timeline (run : Run ω σ) : List (Nat × Event ω) :=
  numberRounds 1 run.rounds

theorem map_snd_numberRounds : ∀ (first : Nat) (rounds : List (List (Event ω))),
    (numberRounds first rounds).map Prod.snd = rounds.flatten
  | _, [] => rfl
  | first, events :: later => by
      rw [numberRounds, List.map_append, map_snd_numberRounds, List.map_map, List.flatten_cons]
      congr 1
      exact List.map_id _

namespace Prepared

variable {prepared : Prepared ω σ}

/-- A run goes on with the courses of its work. -/
theorem runOn_unfolds (hfresh : prepared.start.Fresh) :
    ∀ (limit : Nat) {now : Nat} {work : Work ω σ} {courses : List (Course ω)} (state : σ),
      prepared.scope.WorkUnfolds now prepared.levels prepared.start work courses →
      ∃ work' courses', (prepared.runOn limit work state).work = some work' ∧
        prepared.scope.WorkUnfolds (now + (prepared.runOn limit work state).rounds.length)
          prepared.levels prepared.start work' courses' ∧
        (courses'.flatMap Course.timeline).Perm (courses.flatMap Course.timeline ++
          numberRounds (now + 1) (prepared.runOn limit work state).rounds) ∧
        ((∃ response, (prepared.runOn limit work state).ending = .responded response) →
          work'.outcome? ≠ none ∧ 0 < (prepared.runOn limit work state).rounds.length ∧
          (prepared.scope.width = none → now = 0 ∨ work.outcome? = none →
            now + (prepared.runOn limit work state).rounds.length ≤ 1 + Course.spans courses'))
  | 0, now, work, courses, state, h => by
      refine ⟨work, courses, rfl, h, by simp [runOn, numberRounds], ?_⟩
      rintro ⟨response, hresponse⟩
      cases hresponse
  | limit + 1, now, work, courses, state, h => by
      obtain ⟨courses', hcourses, htimeline, hdue⟩ := Scope.reports_workRound hfresh h state
      simp only [runOn]
      cases ho : ((prepared.scope.workRound prepared.levels work).run state).1.outcome? with
      | some o =>
          refine ⟨_, courses', rfl, hcourses, by simpa [numberRounds] using htimeline, ?_⟩
          intro _
          refine ⟨by rw [ho]; exact Option.some_ne_none o, Nat.succ_pos 0, ?_⟩
          rintro hw (rfl | hbefore)
          · exact Nat.le_add_right 1 _
          · exact hdue hw hbefore (by rw [ho]; exact Option.some_ne_none o)
      | none =>
          obtain ⟨work', courses'', hwork, hcourses', htimeline', hends⟩ :=
            runOn_unfolds hfresh limit
              ((prepared.scope.workRound prepared.levels work).run state).2.1 hcourses
          refine ⟨work', courses'', hwork, ?_, ?_, ?_⟩
          · rw [Run.precededBy, List.length_cons, Nat.add_comm _ 1, ← Nat.add_assoc]
            exact hcourses'
          · refine htimeline'.trans ?_
            rw [Run.precededBy, numberRounds, ← List.append_assoc]
            exact htimeline.append_right _
          · intro hresponse
            obtain ⟨hfinished, _, hlate⟩ := hends hresponse
            refine ⟨hfinished, Nat.succ_pos _, ?_⟩
            intro hw _
            rw [Run.precededBy, List.length_cons, Nat.add_comm _ 1, ← Nat.add_assoc]
            exact hlate hw (.inr ho)

/-- A run that responds leaves the work that the response was read off. -/
theorem runOn_outcome {response : Response} : ∀ {limit : Nat} {work : Work ω σ} {state : σ},
    (prepared.runOn limit work state).ending = .responded response →
    ∃ work' o, (prepared.runOn limit work state).work = some work' ∧ work'.outcome? = some o ∧
      response = o.toResponse
  | 0, _, _, h => by cases h
  | limit + 1, work, state, h => by
      simp only [runOn] at h ⊢
      cases ho : ((prepared.scope.workRound prepared.levels work).run state).1.outcome? with
      | some o =>
          simp only [ho, Ending.responded.injEq] at h
          exact ⟨_, o, rfl, ho, h.symm⟩
      | none =>
          simp only [ho, Run.precededBy] at h ⊢
          exact runOn_outcome h

end Prepared

/-- Courses of a run: its work is what they led to, and its events are theirs. -/
structure Prepared.Follows (prepared : Prepared ω σ) (run : Run ω σ) (courses : List (Course ω)) :
    Prop where
  unfolds : ∃ work, run.work = some work ∧
    prepared.scope.WorkUnfolds run.rounds.length prepared.levels prepared.start work courses
  timeline : run.timeline.Perm (courses.flatMap Course.timeline)

namespace Prepared

variable {prepared : Prepared ω σ} {kind : OperationKind} {site : Site ω σ}
  {selections : List Selection}

/-- Every run follows courses.  Without a limit to the width, one that responds takes just the rounds
that they demand. -/
theorem follows_runOn
    (hstart : prepared.start = prepared.scope.operationWork kind site selections) (limit : Nat)
    (state : σ) : ∃ courses, prepared.Follows (prepared.runOn limit prepared.start state) courses ∧
      (prepared.scope.width = none →
        (∃ response, (prepared.runOn limit prepared.start state).ending = .responded response) →
        (prepared.runOn limit prepared.start state).rounds.length = 1 + Course.spans courses) := by
  have hfresh : prepared.start.Fresh := hstart ▸ prepared.scope.fresh_operationWork kind site selections
  obtain ⟨courses, hcourses, hnil⟩ :=
    prepared.scope.exists_workUnfolds_operationWork prepared.levels kind site selections
  rw [← hstart] at hcourses
  obtain ⟨work, courses', hwork, hcourses', htimeline, hends⟩ :=
    runOn_unfolds hfresh limit state hcourses
  rw [hnil, List.nil_append] at htimeline
  rw [Nat.zero_add] at hcourses' hends
  refine ⟨courses', ⟨⟨work, hwork, hcourses'⟩, htimeline.symm⟩, ?_⟩
  intro hw hresponse
  obtain ⟨hfinished, hpos, hlate⟩ := hends hresponse
  exact Nat.le_antisymm (hlate hw (.inl rfl)) (hcourses'.spans_le hw hfinished hpos)

end Prepared

end GraphQLEngine
