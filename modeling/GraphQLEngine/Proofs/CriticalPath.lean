/-
In which rounds executions work, and how many rounds they take.

Where nothing limits how many children are at work together, every call starts
in the round of the answer that it follows on, and siblings do not delay each
other (`Prepared.KeepsTime`).  So a query takes as many rounds as its critical
path, and a mutation as many as those of its fields together.  With fewer
rounds it is cut off, and only then (`Prepared.TakesTime`).

Work that nests deeper than the depth of its request never finishes; in an
acyclic document with its own depth there is none (`execute_keepsTime`).
-/
import GraphQLEngine.Proofs.Depth
import GraphQLEngine.Proofs.Progress

namespace GraphQLEngine

variable {ω σ : Type}

/-! ## Rounds to spare -/

namespace Prepared

variable {prepared : Prepared ω σ}

/-- A run that responds needs the rounds that it takes, and no more. -/
theorem runOn_of_responded {response : Response} :
    ∀ {limit : Nat} {work : Work ω σ} {state : σ},
      (prepared.runOn limit work state).ending = .responded response → ∀ rounds,
      (rounds < (prepared.runOn limit work state).rounds.length →
        (prepared.runOn rounds work state).ending = .cancelled) ∧
      ((prepared.runOn limit work state).rounds.length ≤ rounds →
        prepared.runOn rounds work state = prepared.runOn limit work state)
  | 0, _, _, h, _ => by cases h
  | limit + 1, work, state, h, rounds => by
      simp only [runOn] at h ⊢
      cases ho : ((prepared.scope.workRound prepared.levels work).run state).1.outcome? with
      | some o =>
          simp only [ho] at h ⊢
          cases rounds with
          | zero => exact ⟨fun _ => rfl, fun hle => absurd hle (Nat.not_succ_le_zero 0)⟩
          | succ rounds =>
              refine ⟨fun hlt => absurd hlt (by simp), fun _ => ?_⟩
              simp only [runOn, ho]
      | none =>
          simp only [ho, Run.precededBy] at h ⊢
          cases rounds with
          | zero => exact ⟨fun _ => rfl, fun hle => absurd hle (Nat.not_succ_le_zero _)⟩
          | succ rounds =>
              obtain ⟨hfewer, henough⟩ := runOn_of_responded h rounds
              simp only [runOn, ho, Run.precededBy, List.length_cons]
              refine ⟨fun hlt => hfewer (Nat.lt_of_succ_lt_succ hlt), fun hle => ?_⟩
              rw [henough (Nat.le_of_succ_le_succ hle)]

/-- A run that is cut off has taken all its rounds, and left unfinished work. -/
theorem runOn_of_cancelled : ∀ {limit : Nat} {work : Work ω σ} {state : σ},
    (prepared.runOn limit work state).ending = .cancelled →
    (prepared.runOn limit work state).rounds.length = limit ∧
      (0 < limit ∨ work.outcome? = none →
        ∃ work', (prepared.runOn limit work state).work = some work' ∧ work'.outcome? = none)
  | 0, work, _, _ => ⟨rfl, fun h => ⟨work, rfl, h.resolve_left (Nat.lt_irrefl 0)⟩⟩
  | limit + 1, work, state, h => by
      simp only [runOn] at h ⊢
      cases ho : ((prepared.scope.workRound prepared.levels work).run state).1.outcome? with
      | some o =>
          simp only [ho] at h
          cases h
      | none =>
          simp only [ho, Run.precededBy] at h ⊢
          obtain ⟨hlength, hunfinished⟩ := runOn_of_cancelled h
          exact ⟨congrArg (· + 1) hlength, fun _ => hunfinished (.inr ho)⟩

end Prepared

/-! ## Time -/

namespace Scope

variable {scope : Scope ω σ} {now levels : Nat}

theorem UnfoldsInTurn.onTime (hw : scope.width = none) {first : Nat} {fields fields' : List (Child ω σ)}
    {courses : List (Course ω)} (h : scope.UnfoldsInTurn now levels first fields fields' courses) :
    ∀ start course, (start, course) ∈ Course.inTurn first courses → course.OnTime start := by
  induction h with
  | fresh _ => exact nofun
  | nil _ => exact nofun
  | absent _ ih => exact ih
  | wait _ h _ =>
      intro start course hmem
      cases List.mem_singleton.mp hmem
      exact h.onTime hw
  | stop _ h _ _ _ =>
      intro start course hmem
      cases List.mem_singleton.mp hmem
      exact h.onTime hw
  | next _ h _ _ _ _ ih =>
      intro start course hmem
      rcases List.mem_cons.mp hmem with heq | hmem
      · cases heq
        exact h.onTime hw
      · exact ih start course hmem

theorem UnfoldsInTurn.settled {first : Nat} {fields fields' : List (Child ω σ)}
    {courses : List (Course ω)} (h : scope.UnfoldsInTurn now levels first fields fields' courses)
    (hos : Child.outcomes? fields' ≠ none) : ∀ course ∈ courses, course.Settled := by
  induction h with
  | fresh _ => exact nofun
  | nil _ => exact nofun
  | absent _ ih => exact ih hos
  | wait _ _ ho =>
      rw [Child.outcomes?, ho] at hos
      exact absurd rfl hos
  | stop _ h ho _ _ => exact List.forall_mem_singleton.mpr (h.settled ho)
  | next _ h ho ho' _ _ ih =>
      refine List.forall_mem_cons.mpr ⟨h.settled ho, ih ?_⟩
      intro hnone
      exact hos (by rw [Child.outcomes?, ho', hnone])

theorem WorkUnfolds.onTime (hw : scope.width = none) {start work : Work ω σ}
    {courses : List (Course ω)} (h : scope.WorkUnfolds now levels start work courses) :
    ∀ first course, (first, course) ∈ Course.inTurn 1 courses → course.OnTime first := by
  cases h with
  | query h =>
      intro first course hmem
      cases List.mem_singleton.mp hmem
      exact h.onTime hw
  | mutation h => exact h.onTime hw

theorem WorkUnfolds.settled {start work : Work ω σ} {courses : List (Course ω)}
    (h : scope.WorkUnfolds now levels start work courses) (ho : work.outcome? ≠ none) :
    ∀ course ∈ courses, course.Settled := by
  cases h with
  | query h =>
      obtain ⟨o, ho⟩ := Option.ne_none_iff_exists'.mp ho
      exact List.forall_mem_singleton.mpr (h.settled ho)
  | mutation h =>
      refine h.settled fun hnone => ho ?_
      rw [Work.outcome?, hnone]
      rfl

end Scope

theorem Course.mem_of_mem_inTurn : ∀ {courses : List (Course ω)} {first start : Nat}
    {course : Course ω}, (start, course) ∈ inTurn first courses → course ∈ courses
  | _ :: _, _, _, _, hmem => by
      rcases List.mem_cons.mp hmem with heq | hmem
      · cases heq
        exact List.mem_cons_self
      · exact List.mem_cons_of_mem _ (mem_of_mem_inTurn hmem)

/-- Courses of a run that keep time: each begins in its turn, and all calls in it start as soon as
the answers are there that they follow on. -/
structure Prepared.KeepsTime (prepared : Prepared ω σ) (run : Run ω σ) (courses : List (Course ω)) :
    Prop extends prepared.Follows run courses where
  /-- All fields of a query have one course. -/
  single : (∃ t, prepared.start = .query t) → ∃ course, courses = [course]
  nested : Course.NestedAll [] courses
  onTime : ∀ start course, (start, course) ∈ Course.inTurn 1 courses →
    course.OnTime start ∧ StartsOnTime start course.timeline

/-- A request takes as many rounds as the critical paths of courses, one after the other. -/
structure Schema.TakesTime (schema : Schema ω σ) (request : Request ω) (prepared : Prepared ω σ)
    (state : σ) (courses : List (Course ω)) : Prop where
  cancelled_iff : ∀ rounds, (schema.execute { request with rounds } state).ending = .cancelled ↔
    rounds < 1 + Course.spans courses
  responds : ∀ rounds, 1 + Course.spans courses ≤ rounds →
    ∃ response, (schema.execute { request with rounds } state).ending = .responded response
  takes : ∀ rounds, 1 + Course.spans courses ≤ rounds →
    (schema.execute { request with rounds } state).rounds.length = 1 + Course.spans courses
  keepsTime : ∀ rounds, 1 + Course.spans courses ≤ rounds →
    prepared.KeepsTime (schema.execute { request with rounds } state) courses
  /-- The span of a course is the longest of the chains of calls in it, and the last of its events
  comes at the end of the span. -/
  critical : ∀ course ∈ courses, course.Chain course.span ∧ ∀ n, course.Chain n → n ≤ course.span
  ends : ∀ start course, (start, course) ∈ Course.inTurn 1 courses →
    course.Ends start (start + course.span)

namespace Schema

variable {schema : Schema ω σ} {request : Request ω} {operation : Operation}
  {root : ObjectType ω σ} {prepared : Prepared ω σ}

theorem Prepares.execute_within (hp : schema.Prepares request operation root prepared) {rounds : Nat}
    (hpos : 0 < rounds) (state : σ) :
    schema.execute { request with rounds } state = prepared.runOn rounds prepared.start state := by
  have hprepare : schema.prepare { request with rounds } = .ok prepared := hp.prepare_eq
  match rounds, hpos with
  | rounds + 1, _ =>
      rw [execute]
      simp only [hprepare]

theorem Prepares.width_eq (hp : schema.Prepares request operation root prepared) :
    prepared.scope.width = request.width := by
  rw [hp.scope_eq]

theorem Prepares.keepsTime_of_follows (hp : schema.Prepares request operation root prepared)
    (hwidth : request.width = none) {run : Run ω σ} {courses : List (Course ω)}
    (h : prepared.Follows run courses) : prepared.KeepsTime run courses := by
  obtain ⟨work, _, hunfolds⟩ := h.unfolds
  have honTime := hunfolds.onTime (hp.width_eq.trans hwidth)
  have hnested : Course.NestedAll [] courses := by
    rw [hp.start_eq] at hunfolds
    exact hunfolds.nested
  refine ⟨h, ?_, hnested, ?_⟩
  · rintro ⟨t, ht⟩
    rw [ht] at hunfolds
    cases hunfolds with
    | query _ => exact ⟨_, rfl⟩
  intro start course hmem
  have ht := honTime start course hmem
  exact ⟨ht, (hnested.nested course (Course.mem_of_mem_inTurn hmem)).startsOnTime ht⟩

/-- A request that is responded to takes the time of its courses. -/
theorem Prepares.takesTime (hp : schema.Prepares request operation root prepared)
    (hwidth : request.width = none) {state : σ} {limit : Nat} {response : Response}
    (h : (prepared.runOn limit prepared.start state).ending = .responded response) :
    ∃ courses, schema.TakesTime request prepared state courses := by
  obtain ⟨courses, hfollows, hlength⟩ := Prepared.follows_runOn hp.start_eq limit state
  have hlength := hlength (hp.width_eq.trans hwidth) ⟨response, h⟩
  have hspare := Prepared.runOn_of_responded h
  rw [hlength] at hspare
  have enough : ∀ rounds, 1 + Course.spans courses ≤ rounds →
      schema.execute { request with rounds } state = prepared.runOn limit prepared.start state := by
    intro rounds hle
    rw [hp.execute_within (by omega) state]
    exact (hspare rounds).2 hle
  have hkeeps := hp.keepsTime_of_follows hwidth hfollows
  obtain ⟨work, o, hwork, ho, _⟩ := Prepared.runOn_outcome h
  obtain ⟨work', hwork', hunfolds⟩ := hfollows.unfolds
  obtain rfl : work = work' := Option.some.inj (hwork.symm.trans hwork')
  have hsettled := hunfolds.settled (by rw [ho]; exact Option.some_ne_none o)
  refine ⟨courses, ?_, ?_, ?_, ?_, ?_, ?_⟩
  · intro rounds
    constructor
    · intro hcancelled
      by_contra hle
      rw [enough rounds (Nat.le_of_not_lt hle), h] at hcancelled
      cases hcancelled
    · intro hlt
      match rounds with
      | 0 => rfl
      | rounds + 1 =>
          rw [hp.execute_within (Nat.succ_pos rounds) state]
          exact (hspare _).1 hlt
  · intro rounds hle
    exact ⟨response, by rw [enough rounds hle, h]⟩
  · intro rounds hle
    rw [enough rounds hle, hlength]
  · intro rounds hle
    rw [enough rounds hle]
    exact hkeeps
  · exact fun course _ => ⟨course.chain_span, fun _ => Course.Chain.le_span⟩
  · intro start course hmem
    exact (hkeeps.onTime start course hmem).1.ends (hsettled course (Course.mem_of_mem_inTurn hmem))

/-- A request takes the time of its courses, or there is work below the levels at some time. -/
theorem Prepares.takesTime_or_cut (hp : schema.Prepares request operation root prepared)
    (hwidth : request.width = none) (state : σ) :
    (∃ courses, schema.TakesTime request prepared state courses) ∨
      ∃ rounds, 0 < rounds ∧ ∃ work courses,
        (schema.execute { request with rounds } state).work = some work ∧
        prepared.scope.WorkUnfolds rounds prepared.levels prepared.start work courses ∧
        work.Cut prepared.levels := by
  by_cases hresponds : ∃ limit response,
      (prepared.runOn limit prepared.start state).ending = .responded response
  · obtain ⟨limit, response, h⟩ := hresponds
    exact .inl (hp.takesTime hwidth h)
  · have hbounded : ∃ bound, ∀ now work courses,
        prepared.scope.WorkUnfolds now prepared.levels prepared.start work courses →
        Course.spans courses ≤ bound :=
      Scope.WorkUnfolds.exists_spans_le prepared.scope.inherits_declared
        (fun _ h => h.suspension_le) hp.declared_start
    obtain ⟨bound, hbound⟩ := hbounded
    -- More rounds than any courses demand.
    have hcancelled : (prepared.runOn (bound + 1) prepared.start state).ending = .cancelled := by
      match he : (prepared.runOn (bound + 1) prepared.start state).ending with
      | .cancelled => rfl
      | .refused reason => exact absurd he (Prepared.runOn_ne_refused _ _ _)
      | .responded response => exact absurd ⟨_, response, he⟩ hresponds
    obtain ⟨hlength, hunfinished⟩ := Prepared.runOn_of_cancelled hcancelled
    obtain ⟨work, hwork, ho⟩ := hunfinished (.inl (Nat.succ_pos bound))
    obtain ⟨courses, hfollows, _⟩ := Prepared.follows_runOn hp.start_eq (bound + 1) state
    obtain ⟨work', hwork', hunfolds⟩ := hfollows.unfolds
    obtain rfl : work = work' := Option.some.inj (hwork.symm.trans hwork')
    rw [hlength] at hunfolds
    refine .inr ⟨bound + 1, Nat.succ_pos bound, work, courses, ?_, hunfolds, ?_⟩
    · rw [hp.execute_within (Nat.succ_pos bound) state]
      exact hwork
    · by_contra hcut
      have hlt := hunfolds.lt_spans (hp.width_eq.trans hwidth) ho hcut
      have hle := hbound _ _ _ hunfolds
      omega

/-- Runs keep time.  A request takes as many rounds as its critical path, and is cut off just if it
has fewer, unless work nests deeper than its depth.  In an acyclic document no work nests deeper than
the depth that is the document's own. -/
theorem execute_keepsTime (hp : schema.Prepares request operation root prepared)
    (hwidth : request.width = none) (state : σ) :
    (∀ rounds, 0 < rounds →
      ∃ courses, prepared.KeepsTime (schema.execute { request with rounds } state) courses) ∧
    ((∃ courses, schema.TakesTime request prepared state courses) ∨
      ∃ rounds work job, (schema.execute { request with rounds } state).work = some work ∧
        work.Holds job ∧ request.depth < job.path.fieldDepth) ∧
    (request.document.Acyclic → request.document.depthBound ≤ request.depth →
      ∃ courses, schema.TakesTime request prepared state courses) := by
  refine ⟨?_, ?_, ?_⟩
  · intro rounds hpos
    obtain ⟨courses, hfollows, _⟩ := Prepared.follows_runOn hp.start_eq rounds state
    rw [hp.execute_within hpos state]
    exact ⟨courses, hp.keepsTime_of_follows hwidth hfollows⟩
  · refine (hp.takesTime_or_cut hwidth state).imp id ?_
    rintro ⟨rounds, _, work, courses, hwork, hunfolds, hcut⟩
    obtain ⟨job, hjob, hdeep⟩ := hp.exists_deep_of_cut hunfolds hcut
    exact ⟨rounds, work, job, hwork, hjob, by omega⟩
  · intro hacyclic hdepth
    refine (hp.takesTime_or_cut hwidth state).resolve_right ?_
    rintro ⟨rounds, _, work, courses, _, hunfolds, hcut⟩
    obtain ⟨job, hjob, hdeep⟩ := hp.exists_deep_of_cut hunfolds hcut
    have hle := hp.fieldDepth_le hacyclic hunfolds hjob
    omega

end Schema

/-! ## A harbor -/

/-- Answers after some rounds. -/
def Resolver.after (rounds : Nat) (answer : Resolved Unit) : Resolver Unit Unit where
  suspension := some rounds
  answer := fun _ state => (.ok answer, state)

def harborQuery : ObjectType Unit Unit where
  name := "Query"
  fields := [
    ("ship", { name := "ship", type := .named "Ship", resolver? := some (.after 2 (.object (.host ()))) }),
    ("depth", { name := "depth", type := .named "Int", resolver? := some (.after 2 (.leaf (.int 9))) })]

def harborShip : ObjectType Unit Unit where
  name := "Ship"
  fields := [
    ("crew", { name := "crew", type := .named "Int", resolver? := some (.after 1 (.leaf (.int 5))) })]

/-- A harbor where everything takes time. -/
def harborSchema : Schema Unit Unit where
  queryType := "Query"
  mutationType := none
  types := BuiltIn.scalars.map (fun t => (t.name, .scalar t)) ++
    [("Query", .object harborQuery), ("Ship", .object harborShip)]
  possible := []

def harborOperation : Operation :=
  .plain .query [.plain "ship" [.plain "crew" []], .plain "depth" []]

def harborRequest : Request Unit where
  document := ⟨[harborOperation], []⟩
  root := .json []
  width := none

def harborPrepared : Prepared Unit Unit :=
  let scope : Scope Unit Unit := ⟨harborSchema, [], [], none⟩
  { scope
    start := scope.operationWork .query ⟨harborQuery, .json [], []⟩ harborOperation.selections
    levels := harborSchema.levels harborRequest.depth }

/-- The crew is known three rounds after the ship is asked for, so the harbor takes four rounds. -/
theorem harborRequest_takesTime :
    harborSchema.Prepares harborRequest harborOperation harborQuery harborPrepared ∧
    harborRequest.width = none ∧ harborRequest.document.Acyclic ∧
    ∃ courses, harborSchema.TakesTime harborRequest harborPrepared () courses ∧
      1 + Course.spans courses = 4 := by
  have hp : harborSchema.Prepares harborRequest harborOperation harborQuery harborPrepared :=
    ⟨rfl, by simp [harborOperation, Operation.plain], rfl, rfl, rfl, rfl, rfl⟩
  have hacyclic : harborRequest.document.Acyclic := fun _ _ hget => by cases hget
  obtain ⟨courses, htime⟩ :=
    (Schema.execute_keepsTime hp rfl ()).2.2 hacyclic (Nat.le_refl _)
  refine ⟨hp, rfl, hacyclic, courses, htime, ?_⟩
  have hthree : (harborSchema.execute { harborRequest with rounds := 3 } ()).ending = .cancelled := by
    decide +kernel
  have hfour : (harborSchema.execute { harborRequest with rounds := 4 } ()).ending ≠ .cancelled := by
    decide +kernel
  have hlt := (htime.cancelled_iff 3).mp hthree
  have hle := mt (htime.cancelled_iff 4).mpr hfour
  omega

end GraphQLEngine
