/-
Courses: which resolvers were called, in which rounds, and what followed on
their answers.

A course has the shape of the response.  The calls below a field follow on the
answer of the field's resolver, those of siblings stand side by side.  The
`timeline` of a course lists what an observer of the resolvers sees, with the
rounds, and its `span` is the longest way through the suspensions
(`chain_span`, `Chain.le_span`).  `Course.OnTime` says that nothing began later
than it could, and `Course.Nested` that the calls stand at places of one
response; together they give the round in which each call starts
(`Nested.startsOnTime`).

That executions follow courses is left to Proofs/Unfolding, and when they are
on time to Proofs/CriticalPath.
-/
import GraphQLEngine.Execution.Run
import GraphQLEngine.Proofs.Positions

namespace GraphQLEngine

variable {ω σ : Type}

/-- What became of the resolver calls at a place and below it. -/
inductive Course (ω : Type) where
  | idle
  /-- A call, the rounds in which it started and was answered, and what followed on the answer. -/
  | call (info : ResolveInfo ω) (suspension : Option Nat) (started ended : Nat)
      (answer : Except ResolverFailure (Resolved ω)) (next : Course ω)
  /-- A call that is not answered yet. -/
  | suspended (info : ResolveInfo ω) (suspension started : Nat)
  /-- What happened at two places that do not depend on each other. -/
  | together (first second : Course ω)

/-- The call that an event starts. -/
def Event.invocation? (event : Event ω) : Option (ResolveInfo ω) :=
  if event.phase = .ended then none else some event.info

namespace Course

/-! ## Events and calls -/

/-- The events of a course with the rounds of their occurrence. -/
def timeline : Course ω → List (Nat × Event ω)
  | .idle => []
  | .call info none _ ended answer next =>
    (ended, ⟨.called, info, some answer⟩) :: next.timeline
  | .call info (some _) started ended answer next =>
    (started, ⟨.started, info, none⟩) :: (ended, ⟨.ended, info, some answer⟩) :: next.timeline
  | .suspended info _ started => [(started, ⟨.started, info, none⟩)]
  | .together first second => first.timeline ++ second.timeline

def calls : Course ω → List (ResolveInfo ω)
  | .idle => []
  | .call info _ _ _ _ next => info :: next.calls
  | .suspended info _ _ => [info]
  | .together first second => first.calls ++ second.calls

theorem invocations_timeline : ∀ course : Course ω,
    course.timeline.filterMap (fun e => e.2.invocation?) = course.calls
  | .idle => rfl
  | .call info none _ _ _ next => congrArg (info :: ·) next.invocations_timeline
  | .call info (some _) _ _ _ next => congrArg (info :: ·) next.invocations_timeline
  | .suspended _ _ _ => rfl
  | .together first second => by
      rw [timeline, List.filterMap_append, first.invocations_timeline, second.invocations_timeline]
      rfl

theorem mem_calls_of_mem_timeline : ∀ {course : Course ω} {round : Nat} {event : Event ω},
    (round, event) ∈ course.timeline → event.info ∈ course.calls
  | .idle, _, _, h => by cases h
  | .call _ none _ _ _ _, _, _, h => by
      rcases List.mem_cons.mp h with heq | h
      · cases heq
        exact List.mem_cons_self
      · exact List.mem_cons_of_mem _ (mem_calls_of_mem_timeline h)
  | .call _ (some _) _ _ _ _, _, _, h => by
      rcases List.mem_cons.mp h with heq | h
      · cases heq
        exact List.mem_cons_self
      · rcases List.mem_cons.mp h with heq | h
        · cases heq
          exact List.mem_cons_self
        · exact List.mem_cons_of_mem _ (mem_calls_of_mem_timeline h)
  | .suspended _ _ _, _, _, h => by
      cases List.mem_singleton.mp h
      exact List.mem_cons_self
  | .together _ _, _, _, h =>
      List.mem_append.mpr ((List.mem_append.mp h).imp mem_calls_of_mem_timeline
        mem_calls_of_mem_timeline)

/-! ## The critical path -/

/-- How many rounds a course takes beyond its first one. -/
def span : Course ω → Nat
  | .idle => 0
  | .call _ suspension _ _ _ next => suspension.getD 0 + next.span
  | .suspended _ suspension _ => suspension
  | .together first second => max first.span second.span

/-- A chain of calls from the first ones on, each below the one before and the last with none below
it, and the sum of their suspensions. -/
inductive Chain : Course ω → Nat → Prop
  | idle : Chain .idle 0
  | call {info : ResolveInfo ω} {suspension : Option Nat} {started ended n : Nat}
      {answer : Except ResolverFailure (Resolved ω)} {next : Course ω} :
      Chain next n → Chain (.call info suspension started ended answer next) (suspension.getD 0 + n)
  | suspended {info : ResolveInfo ω} {suspension started : Nat} :
      Chain (.suspended info suspension started) suspension
  | first {first second : Course ω} {n : Nat} : Chain first n → Chain (.together first second) n
  | second {first second : Course ω} {n : Nat} : Chain second n → Chain (.together first second) n

theorem chain_span : ∀ course : Course ω, course.Chain course.span
  | .idle => .idle
  | .call _ _ _ _ _ next => .call next.chain_span
  | .suspended _ _ _ => .suspended
  | .together first second => by
      rw [span]
      rcases Nat.le_total first.span second.span with h | h
      · rw [Nat.max_eq_right h]
        exact .second second.chain_span
      · rw [Nat.max_eq_left h]
        exact .first first.chain_span

/-- No chain takes longer than the span. -/
theorem Chain.le_span {course : Course ω} {n : Nat} (h : course.Chain n) : n ≤ course.span := by
  induction h with
  | idle => exact Nat.le_refl _
  | call _ ih => exact Nat.add_le_add_left ih _
  | suspended => exact Nat.le_refl _
  | first _ ih => exact Nat.le_trans ih (Nat.le_max_left _ _)
  | second _ ih => exact Nat.le_trans ih (Nat.le_max_right _ _)

/-! ## Rounds -/

/-- Calls start in the given round, or in that of the answer that they follow on, and are answered
after as many rounds as their resolvers are suspended. -/
def OnTime : Nat → Course ω → Prop
  | _, .idle => True
  | round, .call _ suspension started ended _ next =>
    started = round ∧ ended = started + suspension.getD 0 ∧ next.OnTime ended
  | round, .suspended _ _ started => started = round
  | round, .together first second => first.OnTime round ∧ second.OnTime round

/-- Every call is answered. -/
def Settled : Course ω → Prop
  | .idle => True
  | .call _ _ _ _ _ next => next.Settled
  | .suspended _ _ _ => False
  | .together first second => first.Settled ∧ second.Settled

/-- The events of a course that begins in one round, and the round of the last of them. -/
structure Ends (start finish : Nat) (course : Course ω) : Prop where
  within : ∀ e ∈ course.timeline, start ≤ e.1 ∧ e.1 ≤ finish
  last : start = finish ∨ ∃ e ∈ course.timeline, e.1 = finish

/-- The last round of a course that is on time is the one that its critical path leads to. -/
theorem OnTime.ends : ∀ {course : Course ω} {start : Nat}, course.OnTime start → course.Settled →
    course.Ends start (start + course.span)
  | .idle, _, _, _ => ⟨nofun, .inl rfl⟩
  | .call info none started ended answer next, start, ht, hs => by
      obtain ⟨hstarted, hended, htnext⟩ := ht
      have ih := htnext.ends hs
      simp only [span, Option.getD_none, Nat.add_zero, Nat.zero_add] at hended ⊢
      subst hstarted hended
      refine ⟨?_, ih.last.imp id ?_⟩
      · exact List.forall_mem_cons.mpr ⟨⟨Nat.le_refl _, Nat.le_add_right _ _⟩, ih.within⟩
      · rintro ⟨e, he, hlast⟩
        exact ⟨e, List.mem_cons_of_mem _ he, hlast⟩
  | .call info (some rounds) started ended answer next, start, ht, hs => by
      obtain ⟨hstarted, hended, htnext⟩ := ht
      have ih := htnext.ends hs
      simp only [span, Option.getD_some, ← Nat.add_assoc] at hended ⊢
      subst hstarted hended
      have hanswer : (started + rounds, ⟨.ended, info, some answer⟩) ∈
          (Course.call info (some rounds) started (started + rounds) answer next).timeline :=
        List.mem_cons_of_mem _ List.mem_cons_self
      refine ⟨?_, .inr ?_⟩
      · refine List.forall_mem_cons.mpr ⟨⟨Nat.le_refl _, ?_⟩, List.forall_mem_cons.mpr ⟨⟨?_, ?_⟩, ?_⟩⟩
        · exact Nat.le_trans (Nat.le_add_right _ _) (Nat.le_add_right _ _)
        · exact Nat.le_add_right _ _
        · exact Nat.le_add_right _ _
        · intro e he
          exact ⟨Nat.le_trans (Nat.le_add_right _ _) (ih.within e he).1, (ih.within e he).2⟩
      · rcases ih.last with hlast | ⟨e, he, hlast⟩
        · exact ⟨_, hanswer, hlast⟩
        · exact ⟨e, List.mem_cons_of_mem _ (List.mem_cons_of_mem _ he), hlast⟩
  | .together first second, start, ht, hs => by
      have h₁ := ht.1.ends hs.1
      have h₂ := ht.2.ends hs.2
      have hwithin : ∀ e ∈ (Course.together first second).timeline,
          start ≤ e.1 ∧ e.1 ≤ start + max first.span second.span := by
        intro e he
        rcases List.mem_append.mp he with he | he
        · have hle := h₁.within e he
          omega
        · have hle := h₂.within e he
          omega
      refine ⟨hwithin, ?_⟩
      rw [span]
      rcases Nat.le_total first.span second.span with h | h
      · rw [Nat.max_eq_right h]
        exact h₂.last.imp id fun ⟨e, he, hlast⟩ => ⟨e, List.mem_append_right _ he, hlast⟩
      · rw [Nat.max_eq_left h]
        exact h₁.last.imp id fun ⟨e, he, hlast⟩ => ⟨e, List.mem_append_left _ he, hlast⟩

/-- How many rounds courses take one after the other. -/
def spans : List (Course ω) → Nat
  | [] => 0
  | course :: later => course.span + spans later

/-- Courses one after the other, each with the round in which it begins: that in which the one before
has come to its end. -/
def inTurn : Nat → List (Course ω) → List (Nat × Course ω)
  | _, [] => []
  | round, course :: later => (round, course) :: inTurn (round + course.span) later

/-! ## Places -/

/-- The calls of a course stand at a place or below it: those that follow on an answer below the call,
and those of two places apart from each other. -/
inductive Nested : Path → Course ω → Prop
  | idle {path : Path} : Nested path .idle
  | call {path : Path} {info : ResolveInfo ω} {suspension : Option Nat} {started ended : Nat}
      {answer : Except ResolverFailure (Resolved ω)} {next : Course ω} :
      path <+: info.path → Nested info.path next → (∀ below ∈ next.calls, below.path ≠ info.path) →
      Nested path (.call info suspension started ended answer next)
  | suspended {path : Path} {info : ResolveInfo ω} {suspension started : Nat} :
      path <+: info.path → Nested path (.suspended info suspension started)
  | together {path : Path} {first second : Course ω} : Nested path first → Nested path second →
      (∀ i ∈ first.calls, ∀ j ∈ second.calls, i.path.Apart j.path) →
      Nested path (.together first second)

namespace Nested

variable {path : Path} {course : Course ω}

theorem prefix_of_call (h : course.Nested path) : ∀ info ∈ course.calls, path <+: info.path := by
  induction h with
  | idle => intro _ hi; cases hi
  | call hpath _ _ ih =>
      intro i hi
      rcases List.mem_cons.mp hi with rfl | hi
      · exact hpath
      · exact hpath.trans (ih i hi)
  | suspended hpath =>
      intro i hi
      cases List.mem_singleton.mp hi
      exact hpath
  | together _ _ _ ih₁ ih₂ =>
      intro i hi
      rcases List.mem_append.mp hi with hi | hi
      · exact ih₁ i hi
      · exact ih₂ i hi

/-- No place is called at twice. -/
theorem nodup (h : course.Nested path) : (course.calls.map ResolveInfo.path).Nodup := by
  induction h with
  | idle => exact .nil
  | call _ _ hbelow ih =>
      refine List.nodup_cons.mpr ⟨?_, ih⟩
      intro hmem
      obtain ⟨i, hi, heq⟩ := List.mem_map.mp hmem
      exact hbelow i hi heq
  | suspended _ => exact List.nodup_singleton _
  | together _ _ hapart ih₁ ih₂ =>
      rw [calls, List.map_append]
      refine List.nodup_append.mpr ⟨ih₁, ih₂, ?_⟩
      intro p hp q hq heq
      obtain ⟨i, hi, rfl⟩ := List.mem_map.mp hp
      obtain ⟨j, hj, rfl⟩ := List.mem_map.mp hq
      exact (hapart i hi j hj).1 (heq ▸ List.prefix_rfl)

end Nested

end Course

/-! ## When calls start -/

/-- The second place is below the first. -/
def Path.Encloses (p q : Path) : Prop :=
  p <+: q ∧ p ≠ q

/-- A call that is started in the round in which the nearest call around it is answered, or in the
first round if there is none around it. -/
def StartsAt (first : Nat) (timeline : List (Nat × Event ω)) (round : Nat) (event : Event ω) : Prop :=
  (round = first ∧ ∀ other ∈ timeline, ¬ other.2.info.path.Encloses event.info.path) ∨
  ∃ around, (round, around) ∈ timeline ∧ around.answer?.isSome = true ∧
    around.info.path.Encloses event.info.path ∧
    ∀ other ∈ timeline, other.2.info.path.Encloses event.info.path →
      other.2.info.path <+: around.info.path

/-- All calls start as they should. -/
def StartsOnTime (first : Nat) (timeline : List (Nat × Event ω)) : Prop :=
  ∀ round event, (round, event) ∈ timeline → event.phase ≠ .ended →
    StartsAt first timeline round event

/-- Events apart from a call do not matter to it. -/
theorem StartsAt.mono {first round : Nat} {timeline timeline' : List (Nat × Event ω)}
    {event : Event ω} (h : StartsAt first timeline round event) (hsub : timeline ⊆ timeline')
    (hnew : ∀ other ∈ timeline', other ∈ timeline ∨ ¬ other.2.info.path.Encloses event.info.path) :
    StartsAt first timeline' round event := by
  rcases h with ⟨rfl, hnone⟩ | ⟨around, haround, hsome, henc, hnear⟩
  · refine .inl ⟨rfl, ?_⟩
    intro other hother
    exact (hnew other hother).elim (hnone other) id
  · refine .inr ⟨around, hsub haround, hsome, henc, ?_⟩
    intro other hother henc'
    exact (hnew other hother).elim (fun hold => hnear other hold henc') (absurd henc')

namespace Course

/-- The events of a call itself. -/
theorem mem_timeline_call {info : ResolveInfo ω} {suspension : Option Nat} {started ended : Nat}
    {answer : Except ResolverFailure (Resolved ω)} {next : Course ω} {e : Nat × Event ω}
    (h : e ∈ (Course.call info suspension started ended answer next).timeline) :
    e.2.info = info ∧ (e.2.phase ≠ .ended → e.1 = started ∨ suspension = none ∧ e.1 = ended) ∨
      e ∈ next.timeline := by
  match suspension with
  | none =>
      rcases List.mem_cons.mp h with rfl | h
      · exact .inl ⟨rfl, fun _ => .inr ⟨rfl, rfl⟩⟩
      · exact .inr h
  | some _ =>
      rcases List.mem_cons.mp h with rfl | h
      · exact .inl ⟨rfl, fun _ => .inl rfl⟩
      · rcases List.mem_cons.mp h with rfl | h
        · exact .inl ⟨rfl, fun hphase => absurd rfl hphase⟩
        · exact .inr h

/-- The answer of a call. -/
theorem exists_answer_call (info : ResolveInfo ω) (suspension : Option Nat) (started ended : Nat)
    (answer : Except ResolverFailure (Resolved ω)) (next : Course ω) :
    ∃ phase, (ended, ⟨phase, info, some answer⟩) ∈
      (Course.call info suspension started ended answer next).timeline := by
  match suspension with
  | none => exact ⟨.called, List.mem_cons_self⟩
  | some _ => exact ⟨.ended, List.mem_cons_of_mem _ List.mem_cons_self⟩

theorem mem_timeline_call_of_next {info : ResolveInfo ω} {suspension : Option Nat}
    {started ended : Nat} {answer : Except ResolverFailure (Resolved ω)} {next : Course ω}
    {e : Nat × Event ω} (h : e ∈ next.timeline) :
    e ∈ (Course.call info suspension started ended answer next).timeline := by
  match suspension with
  | none => exact List.mem_cons_of_mem _ h
  | some _ => exact List.mem_cons_of_mem _ (List.mem_cons_of_mem _ h)

/-- Calls of a nested course that is on time start as they should. -/
theorem Nested.startsOnTime {path : Path} {course : Course ω} (h : course.Nested path) :
    ∀ {first : Nat}, course.OnTime first → StartsOnTime first course.timeline := by
  induction h with
  | idle => intro _ _ _ _ he; cases he
  | @call path info suspension started ended answer next hpath hnext hbelow ih =>
      intro first ht round event he hphase
      obtain ⟨rfl, hended, htnext⟩ := ht
      -- What follows on the answer is below the call.
      have below : ∀ e ∈ next.timeline, info.path.Encloses e.2.info.path := fun e he =>
        have hcall := mem_calls_of_mem_timeline he
        ⟨hnext.prefix_of_call _ hcall, (hbelow _ hcall).symm⟩
      rcases mem_timeline_call he with ⟨hinfo, hround⟩ | hnext'
      · refine .inl ⟨?_, ?_⟩
        · rcases hround hphase with rfl | ⟨rfl, rfl⟩
          · rfl
          · exact hended
        · intro other hother henc
          rw [hinfo] at henc
          rcases mem_timeline_call hother with ⟨hsame, _⟩ | hother
          · exact henc.2 (congrArg ResolveInfo.path hsame)
          · have hlen := (below other hother).1.length_le
            exact (below other hother).2 (henc.1.eq_of_length_le hlen).symm
      · obtain ⟨phase, hanswer⟩ := exists_answer_call info suspension started ended answer next
        refine .inr ?_
        rcases ih htnext round event hnext' hphase with ⟨rfl, hnone⟩ | ⟨around, haround, hsome, henc, hnear⟩
        · refine ⟨_, hanswer, rfl, below (round, event) hnext', ?_⟩
          intro other hother henc
          rcases mem_timeline_call hother with ⟨hsame, _⟩ | hother
          · exact hsame ▸ List.prefix_rfl
          · exact absurd henc (hnone other hother)
        · refine ⟨around, mem_timeline_call_of_next haround, hsome, henc, ?_⟩
          intro other hother henc'
          rcases mem_timeline_call hother with ⟨hsame, _⟩ | hother
          · rw [hsame]
            exact (below _ haround).1
          · exact hnear other hother henc'
  | suspended _ =>
      intro first ht round event he _
      cases List.mem_singleton.mp he
      refine .inl ⟨ht, ?_⟩
      intro other hother henc
      cases List.mem_singleton.mp hother
      exact henc.2 rfl
  | together _ _ hapart ih₁ ih₂ =>
      intro first ht round event he hphase
      rcases List.mem_append.mp he with he | he
      · refine (ih₁ ht.1 round event he hphase).mono (List.subset_append_left _ _) ?_
        intro other hother
        refine (List.mem_append.mp hother).imp id ?_
        intro hother henc
        exact (hapart _ (mem_calls_of_mem_timeline he) _ (mem_calls_of_mem_timeline hother)).2 henc.1
      · refine (ih₂ ht.2 round event he hphase).mono (List.subset_append_right _ _) ?_
        intro other hother
        refine (List.mem_append.mp hother).symm.imp id ?_
        intro hother henc
        exact (hapart _ (mem_calls_of_mem_timeline hother) _ (mem_calls_of_mem_timeline he)).1 henc.1

end Course

end GraphQLEngine
