/-
Every round of work takes something away.

As long as a sound task is unfinished, and comes to something in the end, a
round makes its weight smaller (`progresses_round`): among the children that
have their turn there is always one that is unfinished.  So a run ends within
as many rounds as its work weighs, and it ends with what the work eventually
comes to (`runOn_of_eventual?`, `eventual?_of_runOn`).

Nothing is said here of work that comes to nothing within its levels.
-/
import GraphQLEngine.Proofs.Eventual
import GraphQLEngine.Proofs.Turns

namespace GraphQLEngine

variable {ω σ : Type}

/-! ## Children -/

namespace Child

variable {f : Task ω σ → Option Outcome}

theorem outcomesBy_cons_ne_none {position : Position} {t : Task ω σ} {rest : List (Child ω σ)}
    (h : outcomesBy f (.mk position t :: rest) ≠ none) : f t ≠ none ∧ outcomesBy f rest ≠ none := by
  rw [outcomesBy] at h
  cases ht : f t with
  | none => simp [ht] at h
  | some _ =>
      cases hr : outcomesBy f rest with
      | none => simp [hr] at h
      | some _ => simp

theorem ne_none_of_outcomesBy {position : Position} {t : Task ω σ} :
    ∀ {children : List (Child ω σ)}, outcomesBy f children ≠ none →
      .mk position t ∈ children → f t ≠ none
  | .absent _ :: rest, h, hmem => by
      rcases List.mem_cons.mp hmem with heq | hmem
      · cases heq
      · exact ne_none_of_outcomesBy (show outcomesBy f rest ≠ none from h) hmem
  | .mk _ _ :: _, h, hmem => by
      obtain ⟨hhead, hrest⟩ := outcomesBy_cons_ne_none h
      rcases List.mem_cons.mp hmem with heq | hmem
      · cases heq
        exact hhead
      · exact ne_none_of_outcomesBy hrest hmem

end Child

namespace Scope

/-- A step of tasks that advances sound ones, and takes weight off those that are unfinished but come
to something. -/
structure Progresses (scope : Scope ω σ) (state : σ) (log : List (Event ω)) (levels : Nat)
    (step : Task ω σ → Action ω σ (Task ω σ)) : Prop where
  advances : ∀ t, (step t).Ensures log (fun t' => t.Sound → scope.Advances state levels t t')
  lighter : ∀ t, t.Sound → t.outcome? = none → scope.eventual? state levels t ≠ none →
    (step t).Ensures log (fun t' => scope.weight state levels t' < scope.weight state levels t)

/-- Children of which one gets lighter, and none gets heavier, get lighter together. -/
theorem lighter_of_relOnce {scope : Scope ω σ} {state : σ} {levels : Nat}
    {children children' : List (Child ω σ)}
    (h : Child.RelOnce (fun t t' => t.Sound → scope.Advances state levels t t')
      (fun t t' => t.Sound → scope.Advances state levels t t' ∧
        scope.weight state levels t' < scope.weight state levels t) children children')
    (hs : Child.AllSound children) :
    Child.weightBy (scope.weight state levels) children' <
      Child.weightBy (scope.weight state levels) children := by
  induction h with
  | here hstrict hrest =>
      exact Nat.add_lt_add_of_lt_of_le (hstrict hs.1).2 (AdvancesAll.of_forall₂ hrest hs.2).weight
  | later hc _ ih =>
      cases hc with
      | absent => exact ih hs
      | mk hadv => exact Nat.add_lt_add_of_le_of_lt (hadv hs.1).weight (ih hs.2)

namespace Progresses

variable {scope : Scope ω σ} {state : σ} {log : List (Event ω)} {levels : Nat}
  {step : Task ω σ → Action ω σ (Task ω σ)}

/-- A step of a sound task advances it, and takes weight off it if it is still unfinished. -/
theorem ensures (h : scope.Progresses state log levels step) {t : Task ω σ} (hs : t.Sound) :
    (step t).Ensures log (fun t' => scope.Advances state levels t t' ∧
      (t'.outcome? = none → scope.eventual? state levels t ≠ none →
        scope.weight state levels t' < scope.weight state levels t)) := by
  intro state' hlog
  have hadv := h.advances t state' hlog hs
  refine ⟨hadv, ?_⟩
  intro hout hev
  match ht : t.outcome? with
  | none => exact h.lighter t hs ht hev state' hlog
  | some o =>
      rw [hadv.finished o ht] at hout
      cases hout

theorem stepsStrictly (h : scope.Progresses state log levels step) :
    Task.StepsStrictly log Task.Sound (fun t => scope.eventual? state levels t ≠ none)
      (fun t t' => t.Sound → scope.Advances state levels t t')
      (fun t t' => t.Sound → scope.Advances state levels t t' ∧
        scope.weight state levels t' < scope.weight state levels t) step where
  refl _ := .refl
  trans _ _ _ hab hbc hs := (hab hs).trans (hbc (hab hs).sound)
  strict_weak a b c hab hbc hs := by
    obtain ⟨hadv, hlt⟩ := hab hs
    have hlater := hbc hadv.sound
    exact ⟨hadv.trans hlater, Nat.lt_of_le_of_lt hlater.weight hlt⟩
  weak_strict a b c hab hbc hs := by
    have hadv := hab hs
    obtain ⟨hlater, hlt⟩ := hbc hadv.sound
    exact ⟨hadv.trans hlater, Nat.lt_of_lt_of_le hlt hadv.weight⟩
  keeps _ _ hadv hs := (hadv hs).sound
  finished t t' hadv hs hne := by
    obtain ⟨o, ho⟩ := Option.ne_none_iff_exists'.mp hne
    rw [(hadv hs).finished o ho]
    exact Option.some_ne_none o
  weak := h.advances
  strict t hs hout hev := by
    refine ((h.advances t).and (h.lighter t hs hout hev)).imp ?_
    rintro t' ⟨hadv, hlt⟩ hs
    exact ⟨hadv hs, hlt⟩

/-- Among the children that have their turn there is one that gets lighter. -/
theorem lighter_turns (h : scope.Progresses state log levels step) (turns : Turns)
    {children : List (Child ω σ)} (hcov : turns.Covers children) (hs : Child.AllSound children)
    (hout : Child.outcomes? children = none)
    (hev : Child.outcomesBy (scope.eventual? state levels) children ≠ none) :
    (turns.step step children).Ensures log (fun r =>
      Child.weightBy (scope.weight state levels) r.2 <
        Child.weightBy (scope.weight state levels) children) := by
  refine (Turns.ensures_step_once h.stepsStrictly turns hcov ?_ hout).imp ?_
  · intro position t hmem
    exact ⟨hs.of_mem hmem, fun _ => Child.ne_none_of_outcomesBy hev hmem⟩
  · intro r honce
    exact lighter_of_relOnce honce hs

end Progresses

/-- Every round takes weight off an unfinished task that comes to something. -/
theorem progresses_round {scope : Scope ω σ} (hpure : scope.schema.Pure) (state : σ)
    (log : List (Event ω)) :
    ∀ levels, scope.Progresses state log levels (scope.round levels)
  | 0 => ⟨(roundRel_advances hpure state log).round 0, fun _ _ hout hev => absurd hout hev⟩
  | levels + 1 => by
      have hR := roundRel_advances hpure state log
      have below := hR.ensures_stepChildren (hR.round levels)
      refine ⟨hR.round (levels + 1), ?_⟩
      intro t hs hout hev
      match t with
      | .value _ => cases hout
      | .failed _ => cases hout
      | .unstarted job =>
          refine (scope.ensures_begin job).bind ?_
          intro t' hb
          refine (below t').imp ?_
          intro t'' hadv
          obtain ⟨hbegun, hlt⟩ := begins_advances hpure hb hs
          exact Nat.lt_of_le_of_lt (hadv hbegun.sound).weight hlt
      | .waiting 0 call =>
          refine (scope.ensures_resume call).bind ?_
          intro t' hr
          refine (below t').imp ?_
          intro t'' hadv
          obtain ⟨hresumed, hlt⟩ := resumes_advances hpure hr hs
          exact Nat.lt_of_le_of_lt (hadv hresumed.sound).weight hlt
      | .waiting (rounds + 1) call => exact Action.ensures_pure (waited_advances hs).2
      | .branch shape turns children =>
          have hchildren : Child.outcomes? children = none := by
            simpa [Task.outcome?] using hout
          have hevchildren : Child.outcomesBy (scope.eventual? state levels) children ≠ none := by
            simpa [Scope.eventual?, opened, Task.outcomeBy] using hev
          have ih := progresses_round hpure state log levels
          refine (ih.lighter_turns turns hs.1 hs.2 hchildren hevchildren).bind fun r hlt =>
            Action.ensures_pure ?_
          simp only [Scope.weight, opened, Task.weightBy, Task.delay]
          omega

end Scope

/-! ## Fields one after the other -/

/-- What the fields of a mutation come to, given what a task comes to: nothing is made of those after
one that passes a null on. -/
def Child.inOrderBy (f : Task ω σ → Option Outcome) :
    List (Child ω σ) → Option (List (PathSegment × Outcome))
  | [] => some []
  | .absent _ :: rest => Child.inOrderBy f rest
  | .mk position task :: rest =>
    match f task with
    | none => none
    | some o =>
      if (o.settle position.type).value.isNone then some [(position.segment, o.settle position.type)]
      else (Child.inOrderBy f rest).map ((position.segment, o.settle position.type) :: ·)

/-- What a round makes of the sound fields of a mutation. -/
structure Scope.AdvancesInOrder (scope : Scope ω σ) (state : σ) (levels : Nat)
    (fields fields' : List (Child ω σ)) : Prop where
  sound : Child.AllSound fields'
  eventual : Child.inOrderBy (scope.eventual? state levels) fields' =
    Child.inOrderBy (scope.eventual? state levels) fields
  weight : Child.weightBy (scope.weight state levels) fields' ≤
    Child.weightBy (scope.weight state levels) fields
  finished : ∀ os, Child.outcomes? fields' = some os →
    Child.inOrderBy (scope.eventual? state levels) fields' = some os
  lighter : Child.inOrderBy (scope.eventual? state levels) fields ≠ none →
    Child.outcomes? fields' = none → Child.weightBy (scope.weight state levels) fields' <
      Child.weightBy (scope.weight state levels) fields

namespace Scope

variable {scope : Scope ω σ} {state : σ} {log : List (Event ω)} {levels : Nat}

section Fields

variable {position : Position} {t t' : Task ω σ} {later later' : List (Child ω σ)}

/-- The first field waits: it alone has had a step. -/
theorem AdvancesInOrder.wait (hs : Child.AllSound later) (hadv : scope.Advances state levels t t')
    (hout : t'.outcome? = none)
    (hlt : scope.eventual? state levels t ≠ none →
      scope.weight state levels t' < scope.weight state levels t) :
    scope.AdvancesInOrder state levels (.mk position t :: later) (.mk position t' :: later) := by
  refine ⟨⟨hadv.sound, hs⟩, ?_, Nat.add_le_add_right hadv.weight _, ?_, ?_⟩
  · rw [Child.inOrderBy, Child.inOrderBy, hadv.eventual]
  · intro os hos
    obtain ⟨o, _, ht, _, _⟩ := Child.outcomes?_mk_cons.mp hos
    rw [hout] at ht
    cases ht
  · intro hev _
    refine Nat.add_lt_add_right (hlt ?_) _
    intro hnone
    exact hev (by rw [Child.inOrderBy, hnone])

/-- The first field passes a null on: the others are dropped. -/
theorem AdvancesInOrder.stop {o : Outcome} (hadv : scope.Advances state levels t t')
    (hout : t'.outcome? = some o) (hnull : (o.settle position.type).value = none) :
    scope.AdvancesInOrder state levels (.mk position t :: later) [.mk position t'] := by
  have hev := scope.eventual?_of_outcome? state levels t' o hout
  have hsingle : Child.inOrderBy (scope.eventual? state levels) [.mk position t'] =
      some [(position.segment, o.settle position.type)] := by
    simp [Child.inOrderBy, hev, hnull]
  have houtcomes : Child.outcomes? [.mk position t'] =
      some [(position.segment, o.settle position.type)] :=
    Child.outcomes?_mk_cons.mpr ⟨o, [], hout, rfl, rfl⟩
  refine ⟨⟨hadv.sound, trivial⟩, ?_, Nat.add_le_add hadv.weight (Nat.zero_le _), ?_, ?_⟩
  · rw [hsingle, Child.inOrderBy, ← hadv.eventual, hev]
    simp [hnull]
  · intro os hos
    rw [hsingle, ← houtcomes, hos]
  · intro _ hnone
    rw [houtcomes] at hnone
    cases hnone

/-- The first field is finished: the others have had their turns. -/
theorem AdvancesInOrder.next {o : Outcome} (hadv : scope.Advances state levels t t')
    (hout : t'.outcome? = some o) (hnull : (o.settle position.type).value ≠ none)
    (hlater : scope.AdvancesInOrder state levels later later') :
    scope.AdvancesInOrder state levels (.mk position t :: later) (.mk position t' :: later') := by
  have hev' := scope.eventual?_of_outcome? state levels t' o hout
  have hev : scope.eventual? state levels t = some o := hadv.eventual ▸ hev'
  have split : ∀ {u : Task ω σ} {rest : List (Child ω σ)}, scope.eventual? state levels u = some o →
      Child.inOrderBy (scope.eventual? state levels) (.mk position u :: rest) =
        (Child.inOrderBy (scope.eventual? state levels) rest).map
          ((position.segment, o.settle position.type) :: ·) := by
    intro u rest hu
    simp [Child.inOrderBy, hu, hnull]
  refine ⟨⟨hadv.sound, hlater.sound⟩, ?_, Nat.add_le_add hadv.weight hlater.weight, ?_, ?_⟩
  · rw [split hev', split hev, hlater.eventual]
  · intro os hos
    obtain ⟨o', os', ht, hr, rfl⟩ := Child.outcomes?_mk_cons.mp hos
    rw [hout, Option.some.injEq] at ht
    rw [split hev', hlater.finished os' hr, ← ht, Option.map_some]
  · intro hlive hnone
    have hlive' : Child.inOrderBy (scope.eventual? state levels) later ≠ none := by
      intro hn
      exact hlive (by rw [split hev, hn, Option.map_none])
    exact Nat.add_lt_add_of_le_of_lt hadv.weight
      (hlater.lighter hlive' (Child.outcomes?_later_eq_none hout hnone))

end Fields

theorem Progresses.ensures_stepSerial {step : Task ω σ → Action ω σ (Task ω σ)}
    (h : scope.Progresses state log levels step) :
    ∀ {fields : List (Child ω σ)}, Child.AllSound fields →
      (Child.stepSerial step fields).Ensures log (scope.AdvancesInOrder state levels fields)
  | [], _ =>
      Action.ensures_pure ⟨trivial, rfl, Nat.le_refl _, fun _ h => h, fun _ hnone => by cases hnone⟩
  | .absent key :: later, hs =>
      (Child.ensures_step h.advances (.absent key)).bind fun c' hc => by
        cases hc with
        | absent =>
            exact (h.ensures_stepSerial (show Child.AllSound later from hs)).bind fun later' hl =>
              Action.ensures_pure ⟨hl.sound, hl.eventual, hl.weight, hl.finished, hl.lighter⟩
  | .mk position t :: later, hs => by
      have head : ((Child.mk position t).step step).Ensures log (fun c' => ∃ t',
          c' = .mk position t' ∧ scope.Advances state levels t t' ∧
            (t'.outcome? = none → scope.eventual? state levels t ≠ none →
              scope.weight state levels t' < scope.weight state levels t)) :=
        (h.ensures hs.1).bind fun t' ht => Action.ensures_pure ⟨t', rfl, ht⟩
      refine head.bind ?_
      rintro _ ⟨t', rfl, hadv, hlt⟩
      match hout : t'.outcome? with
      | none =>
          have hwait : (Child.mk position t').isFinished = false := by
            simp [Child.isFinished, hout]
          simp only [hwait, Bool.not_false, if_true]
          exact Action.ensures_pure (.wait hs.2 hadv hout (hlt hout))
      | some o =>
          have hdone : (Child.mk position t').isFinished = true := by
            simp [Child.isFinished, hout]
          simp only [hdone, Bool.not_true, Bool.false_eq_true, if_false]
          by_cases hnull : (o.settle position.type).value = none
          · have hpass : (Child.mk position t').passesNull = true := by
              rw [Child.passesNull_mk hout, hnull]
              rfl
            rw [if_pos hpass]
            exact Action.ensures_pure (.stop hadv hout hnull)
          · have hpass : ¬ (Child.mk position t').passesNull = true := by
              simpa [Child.passesNull_mk hout] using hnull
            rw [if_neg hpass]
            exact (h.ensures_stepSerial hs.2).bind fun later' hl =>
              Action.ensures_pure (.next hadv hout hnull hl)

/-! ## Operations -/

/-- What an operation comes to in the end, down to the given number of levels below its fields. -/
def workEventual? (scope : Scope ω σ) (state : σ) (levels : Nat) : Work ω σ → Option Outcome
  | .query task => scope.eventual? state (levels + 1) task
  | .mutation site fields =>
    (Child.inOrderBy (scope.eventual? state levels) fields).map (Shape.object site).join

/-- How many rounds an operation holds. -/
def workWeight (scope : Scope ω σ) (state : σ) (levels : Nat) : Work ω σ → Nat
  | .query task => scope.weight state (levels + 1) task
  | .mutation _ fields => Child.weightBy (scope.weight state levels) fields

end Scope

def Work.Sound : Work ω σ → Prop
  | .query task => task.Sound
  | .mutation _ fields => Child.AllSound fields

/-- Work on an object of a registered type is sound. -/
theorem Scope.sound_operationWork {scope : Scope ω σ} (hpure : scope.schema.Pure)
    {site : Site ω σ} (hsite : ∃ name, scope.schema.object? name = some site.objectType)
    (kind : OperationKind) (selections : List Selection) : (scope.operationWork kind site selections).Sound := by
  have hsound := (isCompleted_objectTask hpure site hsite selections).sound
  match kind with
  | .query => exact hsound
  | .subscription => exact hsound
  | .mutation => exact hsound.2

/-- What a round makes of the sound work on an operation. -/
structure Scope.WorkAdvances (scope : Scope ω σ) (state : σ) (levels : Nat) (work work' : Work ω σ) :
    Prop where
  sound : work'.Sound
  eventual : scope.workEventual? state levels work' = scope.workEventual? state levels work
  finished : ∀ o, work'.outcome? = some o → scope.workEventual? state levels work' = some o
  lighter : scope.workEventual? state levels work ≠ none → work'.outcome? = none →
    scope.workWeight state levels work' < scope.workWeight state levels work

theorem Scope.ensures_workRound_advances {scope : Scope ω σ} (hpure : scope.schema.Pure) (state : σ)
    (log : List (Event ω)) (levels : Nat) {work : Work ω σ} (hs : work.Sound) :
    (scope.workRound levels work).Ensures log (scope.WorkAdvances state levels work) := by
  match work with
  | .query t =>
      refine ((progresses_round hpure state log (levels + 1)).ensures hs).bind ?_
      rintro t' ⟨hadv, hlt⟩
      refine Action.ensures_pure ⟨hadv.sound, hadv.eventual, ?_, ?_⟩
      · intro o ho
        exact scope.eventual?_of_outcome? state (levels + 1) t' o ho
      · intro hev hout
        exact hlt hout hev
  | .mutation site fields =>
      refine ((progresses_round hpure state log levels).ensures_stepSerial hs).bind ?_
      intro fields' h
      refine Action.ensures_pure ⟨h.sound, ?_, ?_, ?_⟩
      · rw [workEventual?, workEventual?, h.eventual]
      · intro o ho
        obtain ⟨os, hos, rfl⟩ := Option.map_eq_some_iff.mp ho
        rw [workEventual?, h.finished os hos, Option.map_some]
      · intro hev hout
        refine h.lighter ?_ (Option.map_eq_none_iff.mp hout)
        intro hnone
        exact hev (by rw [workEventual?, hnone, Option.map_none])

/-! ## Runs -/

namespace Prepared

variable {prepared : Prepared ω σ}

theorem workRound_advances (hpure : prepared.scope.schema.Pure) (state : σ) {work : Work ω σ}
    (hs : work.Sound) (state' : σ) :
    prepared.scope.WorkAdvances state prepared.levels work
      ((prepared.scope.workRound prepared.levels work).run state').1 :=
  prepared.scope.ensures_workRound_advances hpure state _ prepared.levels hs state'
    (List.Subset.refl _)

theorem runOn_ne_refused {reason : RequestError} : ∀ (limit : Nat) (work : Work ω σ) (state' : σ),
    (prepared.runOn limit work state').ending ≠ .refused reason
  | 0, _, _ => by simp [runOn]
  | limit + 1, work, state' => by
      rw [runOn]
      match hout : ((prepared.scope.workRound prepared.levels work).run state').1.outcome? with
      | some _ => simp [hout]
      | none =>
          simp only [hout, Run.precededBy]
          exact runOn_ne_refused limit _ _

/-- Sound work that comes to something in the end is finished within as many rounds as it weighs,
and then comes to that. -/
theorem runOn_of_eventual? (hpure : prepared.scope.schema.Pure) {state : σ} {o : Outcome} :
    ∀ {limit : Nat} {work : Work ω σ} (state' : σ), work.Sound →
      prepared.scope.workEventual? state prepared.levels work = some o →
      prepared.scope.workWeight state prepared.levels work < limit →
      (prepared.runOn limit work state').ending = .responded o.toResponse
  | 0, _, _, _, _, hlt => absurd hlt (Nat.not_lt_zero _)
  | limit + 1, work, state', hs, hev, hlt => by
      have hadv := workRound_advances hpure state hs state'
      rw [runOn]
      match hout : ((prepared.scope.workRound prepared.levels work).run state').1.outcome? with
      | some o' =>
          have heq := hadv.finished o' hout
          rw [hadv.eventual, hev, Option.some.injEq] at heq
          simp only [hout, heq]
      | none =>
          simp only [hout, Run.precededBy]
          have hless := hadv.lighter (by rw [hev]; exact Option.some_ne_none o) hout
          exact runOn_of_eventual? hpure _ hadv.sound (hadv.eventual.trans hev) (by omega)

/-- A response is what sound work comes to in the end. -/
theorem eventual?_of_runOn (hpure : prepared.scope.schema.Pure) (state : σ) {response : Response} :
    ∀ {limit : Nat} {work : Work ω σ} {state' : σ}, work.Sound →
      (prepared.runOn limit work state').ending = .responded response →
      ∃ o, prepared.scope.workEventual? state prepared.levels work = some o ∧
        response = o.toResponse
  | 0, _, _, _, h => by simp [runOn] at h
  | limit + 1, work, state', hs, h => by
      have hadv := workRound_advances hpure state hs state'
      rw [runOn] at h
      match hout : ((prepared.scope.workRound prepared.levels work).run state').1.outcome? with
      | some o =>
          simp only [hout, Ending.responded.injEq] at h
          exact ⟨o, hadv.eventual ▸ hadv.finished o hout, h.symm⟩
      | none =>
          simp only [hout, Run.precededBy] at h
          obtain ⟨o, ho, hr⟩ := eventual?_of_runOn hpure state hadv.sound h
          exact ⟨o, hadv.eventual ▸ ho, hr⟩

end Prepared

end GraphQLEngine
