/-
Mutations, part after part.

The fields of a mutation are worked on one after the other, and several may
have their turn in one round.  A run of them is described by `FieldsRun`, apart
from requests and their limits.  Such runs compose: a part that passes a null
on ends the run of the whole, and otherwise the next part begins where it ends.
What makes this hold is that finished work is quiet: in the rounds of the next
part it reports nothing, changes no state and keeps its outcomes.

The main statement, `Schema.execute_mutation_append`, is about two parts of a
selection set that have no response key in common.  Without that condition the
fields of the second part may belong to groups of the first.
-/
import GraphQLEngine.Proofs.Account
import GraphQLEngine.Proofs.Collection
import GraphQLEngine.Proofs.Outcome

namespace GraphQLEngine

variable {ω σ α β : Type}

/-! ## Quiet actions -/

namespace Action

/-- In every state it reports nothing and leaves the state as it is, and its result has a property. -/
def Quietly (P : α → Prop) (action : Action ω σ α) : Prop :=
  ∀ state, ∃ a, action.run state = (a, state, []) ∧ P a

theorem quietly_pure {P : α → Prop} {a : α} (h : P a) : (pure a : Action ω σ α).Quietly P :=
  fun _ => ⟨a, rfl, h⟩

theorem run_bind (action : Action ω σ α) (next : α → Action ω σ β) {a : α} {state state' : σ}
    {events : List (Event ω)} (h : action.run state = (a, state', events)) :
    (action >>= next).run state =
      (((next a).run state').1, ((next a).run state').2.1, events ++ ((next a).run state').2.2) := by
  show Action.bind action next state = _
  simp only [Action.bind, Action.run] at h ⊢
  rw [h]

theorem Quietly.bind {P : α → Prop} {Q : β → Prop} {action : Action ω σ α}
    {next : α → Action ω σ β} (h : action.Quietly P) (k : ∀ a, P a → (next a).Quietly Q) :
    (action >>= next).Quietly Q := by
  intro state
  obtain ⟨a, ha, hp⟩ := h state
  obtain ⟨b, hb, hq⟩ := k a hp state
  exact ⟨b, by rw [run_bind action next ha, hb]; rfl, hq⟩

end Action

/-! ## Finished work -/

/-- The same work, as far as outcomes tell. -/
def Task.SameOutcome (t t' : Task ω σ) : Prop :=
  t'.outcome? = t.outcome?

theorem Task.SameOutcome.refl (t : Task ω σ) : t.SameOutcome t :=
  Eq.refl t.outcome?

/-- A step that is quiet on finished work, and keeps its outcome. -/
def Task.KeepsQuiet (step : Task ω σ → Action ω σ (Task ω σ)) : Prop :=
  ∀ t, t.outcome?.isSome = true → (step t).Quietly t.SameOutcome

namespace Child

theorem outcomes?_of_forall₂ : ∀ {children children' : List (Child ω σ)},
    List.Forall₂ (Child.Rel Task.SameOutcome) children children' →
      outcomes? children' = outcomes? children
  | [], _, .nil => rfl
  | .absent _ :: rest, .absent _ :: rest', .cons .absent h =>
      show outcomes? rest' = outcomes? rest from outcomes?_of_forall₂ h
  | .mk _ t :: _, _, .cons (.mk ht) h => by
      rw [outcomes?, outcomes?, outcomes?_of_forall₂ h, show _ = t.outcome? from ht]

variable {step : Task ω σ → Action ω σ (Task ω σ)}

theorem quietly_step (hstep : Task.KeepsQuiet step) {c : Child ω σ} (h : c.isFinished = true) :
    (c.step step).Quietly (Child.Rel Task.SameOutcome c) := by
  cases c with
  | absent key => exact Action.quietly_pure .absent
  | mk position t =>
      refine (hstep t h).bind ?_
      intro t' ht
      exact Action.quietly_pure (.mk ht)

theorem quietly_forEach (hstep : Task.KeepsQuiet step) {children : List (Child ω σ)}
    (h : ∀ c ∈ children, c.isFinished = true) :
    (Action.forEach (Child.step step) children).Quietly
      (List.Forall₂ (Child.Rel Task.SameOutcome) children) := by
  induction children with
  | nil => exact Action.quietly_pure .nil
  | cons c rest ih =>
      obtain ⟨hc, hrest⟩ := List.forall_mem_cons.mp h
      refine (quietly_step hstep hc).bind ?_
      intro c' hsame
      refine (ih hrest).bind ?_
      intro rest' hsames
      exact Action.quietly_pure (.cons hsame hsames)

theorem Rel.isFinished_eq {c c' : Child ω σ} (h : Child.Rel Task.SameOutcome c c') :
    c'.isFinished = c.isFinished := by
  cases h with
  | mk ht => exact congrArg Option.isSome ht
  | absent => rfl

theorem Rel.passesNull_eq {c c' : Child ω σ} (h : Child.Rel Task.SameOutcome c c') :
    c'.passesNull = c.passesNull := by
  cases h with
  | @mk _ t t' ht =>
      have heq : t'.outcome? = t.outcome? := ht
      rw [passesNull, passesNull, heq]
  | absent => rfl

theorem quietly_stepQueued (hstep : Task.KeepsQuiet step) {os : List (PathSegment × Outcome)} :
    ∀ (fuel : Nat) (waited : Bool) (queue : List Nat) {children : List (Child ω σ)},
      outcomes? children = some os →
      (Turns.stepQueued step fuel waited queue children).Quietly (fun r => outcomes? r.2 = some os)
  | 0, _, _, _, h => Action.quietly_pure h
  | _ + 1, _, [], _, h => Action.quietly_pure h
  | fuel + 1, waited, i :: queue, children, h => by
      rw [Turns.stepQueued]
      cases hi : children[i]? with
      | none => exact quietly_stepQueued hstep fuel waited queue h
      | some c =>
          have hc := isFinished_of_mem h c (List.mem_of_getElem? hi)
          refine (quietly_step hstep hc).bind ?_
          intro c' hcc
          have hset := outcomes?_of_forall₂ (forall₂_set Task.SameOutcome.refl hcc hi)
          simp only [hcc.isFinished_eq.trans hc, if_true]
          exact quietly_stepQueued hstep fuel false queue (hset.trans h)

theorem quietly_turns (hstep : Task.KeepsQuiet step) (turns : Turns) {children : List (Child ω σ)}
    {os : List (PathSegment × Outcome)} (h : outcomes? children = some os) :
    (turns.step step children).Quietly (fun r => outcomes? r.2 = some os) := by
  match turns with
  | .together =>
      refine (quietly_forEach hstep (isFinished_of_mem h)).bind ?_
      intro children' hsames
      exact Action.quietly_pure ((outcomes?_of_forall₂ hsames).trans h)
  | .queued queue =>
      refine (quietly_stepQueued hstep (2 * queue.length) false queue h).bind ?_
      intro r hr
      exact Action.quietly_pure hr

end Child

/-- Rounds are quiet on finished work. -/
theorem Scope.round_keepsQuiet (scope : Scope ω σ) : ∀ levels, Task.KeepsQuiet (scope.round levels)
  | 0, _, _ => Action.quietly_pure rfl
  | _ + 1, .value _, _ => Action.quietly_pure rfl
  | _ + 1, .failed _, _ => Action.quietly_pure rfl
  | levels + 1, .branch shape turns children, h => by
      obtain ⟨o, ho⟩ := Option.isSome_iff_exists.mp h
      obtain ⟨os, hos, -⟩ := Option.map_eq_some_iff.mp ho
      refine (Child.quietly_turns (scope.round_keepsQuiet levels) turns hos).bind ?_
      intro r hr
      refine Action.quietly_pure ?_
      show (Child.outcomes? r.2).map shape.join = (Child.outcomes? children).map shape.join
      rw [hr, hos]

namespace Child

/-! ## Serial steps of two parts -/

/-- How serial steps of fields with more fields behind them end, given how they end for these fields
alone. -/
inductive Handover (step : Task ω σ → Action ω σ (Task ω σ)) (later : List (Child ω σ))
    (alone whole : List (Child ω σ) × σ × List (Event ω)) : Prop
  /-- A field is not finished. -/
  | waits : outcomes? alone.1 = none → whole = (alone.1 ++ later, alone.2) →
      Handover step later alone whole
  /-- A field passes a null on, so that the later ones are dropped. -/
  | stops {os : List (PathSegment × Outcome)} : outcomes? alone.1 = some os → allValues os = none →
      whole = alone → Handover step later alone whole
  /-- The later fields have their turn. -/
  | goesOn {os : List (PathSegment × Outcome)} {vs : List (PathSegment × Json)}
      {after : List (Child ω σ) × σ × List (Event ω)} :
      outcomes? alone.1 = some os → allValues os = some vs →
      (stepSerial step later).run alone.2.1 = after →
      whole = (alone.1 ++ after.1, after.2.1, alone.2.2 ++ after.2.2) →
      Handover step later alone whole

/-- A finished field that passes no null on stands in front of what the others do. -/
theorem Handover.cons {step : Task ω σ → Action ω σ (Task ω σ)} {later : List (Child ω σ)}
    {alone whole : List (Child ω σ) × σ × List (Event ω)} (h : Handover step later alone whole)
    {c : Child ω σ} {own : List (PathSegment × Outcome)} {vs : List (PathSegment × Json)}
    (hown : outcomes? [c] = some own) (hvs : allValues own = some vs) (events : List (Event ω)) :
    Handover step later (c :: alone.1, alone.2.1, events ++ alone.2.2)
      (c :: whole.1, whole.2.1, events ++ whole.2.2) := by
  have hcons : ∀ rest, outcomes? (c :: rest) = (outcomes? rest).map (own ++ ·) := by
    intro rest
    rw [outcomes?_cons, hown, Option.bind_some]
  cases h with
  | waits hnot hwhole =>
      refine .waits ?_ (by rw [hwhole]; rfl)
      rw [hcons, hnot, Option.map_none]
  | @stops os hos hnone hwhole =>
      have hboth : allValues (own ++ os) = none := by
        rw [allValues_append, hvs, hnone]
        rfl
      exact .stops ((hcons _).trans (by rw [hos, Option.map_some])) hboth (by rw [hwhole])
  | @goesOn os vs' after hos hvalues hafter hwhole =>
      have hboth : allValues (own ++ os) = some (vs ++ vs') := by
        rw [allValues_append, hvs, hvalues]
        rfl
      refine .goesOn ((hcons _).trans (by rw [hos, Option.map_some])) hboth hafter ?_
      rw [hwhole, List.cons_append, List.append_assoc]

/-- A serial step of the first field decides whether the others have one. -/
theorem run_stepSerial_cons (step : Task ω σ → Action ω σ (Task ω σ)) (c : Child ω σ)
    (later : List (Child ω σ)) {state state' : σ} {c' : Child ω σ} {events : List (Event ω)}
    (h : (c.step step).run state = (c', state', events)) :
    (stepSerial step (c :: later)).run state =
      if c'.isFinished = true ∧ c'.passesNull = false then
        let after := (stepSerial step later).run state'
        (c' :: after.1, after.2.1, events ++ after.2.2)
      else if c'.isFinished = true then ([c'], state', events)
      else (c' :: later, state', events) := by
  rw [stepSerial, Action.run_bind _ _ h]
  match c'.isFinished, c'.passesNull with
  | false, _ => simp [Action.run, Pure.pure, Action.pure]
  | true, true => simp [Action.run, Pure.pure, Action.pure]
  | true, false => simp [Action.run, Pure.pure, Action.pure, Bind.bind, Action.bind]

/-- Serial steps of two parts: those of the first, and those of the second if the first is finished
and passes no null on. -/
theorem handover_stepSerial (step : Task ω σ → Action ω σ (Task ω σ)) (later fields : List (Child ω σ))
    (state : σ) :
    Handover step later ((stepSerial step fields).run state)
      ((stepSerial step (fields ++ later)).run state) := by
  induction fields generalizing state with
  | nil =>
      have hos : outcomes? ([] : List (Child ω σ)) = some [] := rfl
      exact .goesOn hos (rfl : allValues [] = some []) rfl (by simp [stepSerial]; rfl)
  | cons c rest ih =>
      match hc : (c.step step).run state with
      | (c', state', events) =>
      rw [List.cons_append, run_stepSerial_cons step c rest hc,
        run_stepSerial_cons step c (rest ++ later) hc]
      match hf : c'.isFinished, hn : c'.passesNull with
      | false, _ =>
          simp only [Bool.false_eq_true, false_and, if_false]
          refine .waits ?_ rfl
          match hos : outcomes? (c' :: rest) with
          | none => rfl
          | some os =>
              rw [isFinished_of_mem hos c' List.mem_cons_self] at hf
              cases hf
      | true, true =>
          simp only [Bool.true_eq_false, and_false, if_false, if_true]
          obtain ⟨os, hos⟩ := isFinished_iff.mp hf
          rw [passesNull_eq hos] at hn
          exact .stops hos (Option.isNone_iff_eq_none.mp hn) rfl
      | true, false =>
          simp only [and_self, if_true]
          obtain ⟨os, hos⟩ := isFinished_iff.mp hf
          rw [passesNull_eq hos] at hn
          obtain ⟨vs, hvs⟩ : ∃ vs, allValues os = some vs :=
            Option.isSome_iff_exists.mp (by simpa using hn)
          exact (ih state').cons hos hvs events

/-- Finished fields that pass no null on have quiet steps. -/
theorem quietly_stepSerial {step : Task ω σ → Action ω σ (Task ω σ)} (hstep : Task.KeepsQuiet step)
    {fields : List (Child ω σ)} (h : ∀ c ∈ fields, c.isFinished = true ∧ c.passesNull = false) :
    (stepSerial step fields).Quietly (List.Forall₂ (Child.Rel Task.SameOutcome) fields) := by
  induction fields with
  | nil => exact Action.quietly_pure .nil
  | cons c later ih =>
      obtain ⟨⟨hf, hn⟩, hlater⟩ := List.forall_mem_cons.mp h
      refine (quietly_step hstep hf).bind ?_
      intro c' hsame
      simp only [hsame.isFinished_eq, hf, hsame.passesNull_eq, hn, Bool.not_true, Bool.false_eq_true,
        if_false]
      refine (ih hlater).bind ?_
      intro later' hsames
      exact Action.quietly_pure (.cons hsame hsames)

/-! ## Runs of fields -/

/-- A run of serial steps of fields, until all that are left are finished: the rounds before the last,
the outcomes, the events and the state. -/
inductive FieldsRun (step : Task ω σ → Action ω σ (Task ω σ)) :
    Nat → List (Child ω σ) → σ → List (PathSegment × Outcome) → List (Event ω) → σ → Prop
  | last {fields fields' : List (Child ω σ)} {state state' : σ} {events : List (Event ω)}
      {os : List (PathSegment × Outcome)} :
      (stepSerial step fields).run state = (fields', state', events) →
      outcomes? fields' = some os → FieldsRun step 0 fields state os events state'
  | round {rounds : Nat} {fields fields' : List (Child ω σ)} {state state' state'' : σ}
      {events events' : List (Event ω)} {os : List (PathSegment × Outcome)} :
      (stepSerial step fields).run state = (fields', state', events) →
      outcomes? fields' = none → FieldsRun step rounds fields' state' os events' state'' →
      FieldsRun step (rounds + 1) fields state os (events ++ events') state''

variable {step : Task ω σ → Action ω σ (Task ω σ)} {fields fields' later : List (Child ω σ)}
  {state state' state'' : σ} {events events' : List (Event ω)} {os os' : List (PathSegment × Outcome)}
  {rounds rounds' : Nat}

theorem run_stepSerial_append_of_waits
    (h : (stepSerial step fields).run state = (fields', state', events))
    (hnot : outcomes? fields' = none) :
    (stepSerial step (fields ++ later)).run state = (fields' ++ later, state', events) := by
  have hand := handover_stepSerial step later fields state
  rw [h] at hand
  cases hand with
  | waits _ hwhole => exact hwhole
  | stops hos _ _ => cases hos.symm.trans hnot
  | goesOn hos _ _ _ => cases hos.symm.trans hnot

theorem run_stepSerial_append_of_stops
    (h : (stepSerial step fields).run state = (fields', state', events))
    (hos : outcomes? fields' = some os) (hnone : allValues os = none) :
    (stepSerial step (fields ++ later)).run state = (fields', state', events) := by
  have hand := handover_stepSerial step later fields state
  rw [h] at hand
  cases hand with
  | waits hnot _ => cases hos.symm.trans hnot
  | stops _ _ hwhole => exact hwhole
  | goesOn hos' hvs _ _ =>
      cases hos.symm.trans hos'
      cases hnone.symm.trans hvs

theorem run_stepSerial_append_of_goesOn {later' : List (Child ω σ)} {vs : List (PathSegment × Json)}
    (h : (stepSerial step fields).run state = (fields', state', events))
    (hos : outcomes? fields' = some os) (hvs : allValues os = some vs)
    (hlater : (stepSerial step later).run state' = (later', state'', events')) :
    (stepSerial step (fields ++ later)).run state =
      (fields' ++ later', state'', events ++ events') := by
  have hand := handover_stepSerial step later fields state
  rw [h] at hand
  cases hand with
  | waits hnot _ => cases hos.symm.trans hnot
  | stops hos' hnone _ =>
      cases hos.symm.trans hos'
      cases hnone.symm.trans hvs
  | goesOn _ _ hafter hwhole =>
      cases hlater.symm.trans hafter
      exact hwhole

namespace FieldsRun

/-- A part that passes a null on makes up the run. -/
theorem append_of_null (h : FieldsRun step rounds fields state os events state')
    (hnone : allValues os = none) (later : List (Child ω σ)) :
    FieldsRun step rounds (fields ++ later) state os events state' := by
  induction h with
  | last hrun hos => exact .last (run_stepSerial_append_of_stops hrun hos hnone) hos
  | round hrun hnot _ ih =>
      refine .round (run_stepSerial_append_of_waits hrun hnot) ?_ (ih hnone)
      rw [outcomes?_append, hnot, Option.bind_none]

/-- The second part begins in the round in which the first is finished. -/
theorem after (hstep : Task.KeepsQuiet step) {vs : List (PathSegment × Json)}
    (hvs : allValues os = some vs) (h : FieldsRun step rounds later state' os' events' state'')
    (hrun : (stepSerial step fields).run state = (fields', state', events))
    (hos : outcomes? fields' = some os) :
    FieldsRun step rounds (fields ++ later) state (os ++ os') (events ++ events') state'' := by
  induction h generalizing fields fields' state events with
  | last hlater hos' =>
      refine .last (run_stepSerial_append_of_goesOn hrun hos hvs hlater) ?_
      rw [outcomes?_append, hos, hos']
      rfl
  | @round _ _ later' _ t _ _ _ _ hlater hnot _ ih =>
      -- In the rounds that follow, the first part is quiet.
      have hquiet := quietly_stepSerial hstep fun c hc =>
        ⟨isFinished_of_mem hos c hc, passesNull_of_mem hos hvs c hc⟩
      obtain ⟨fields'', hrun', hrel⟩ := hquiet t
      rw [← List.append_assoc]
      refine .round (run_stepSerial_append_of_goesOn hrun hos hvs hlater) ?_
        (ih hrun' ((outcomes?_of_forall₂ hrel).trans hos))
      rw [outcomes?_append, hos, hnot]
      rfl

/-- Runs of two parts, the first of which passes no null on, make up a run. -/
theorem append (hstep : Task.KeepsQuiet step) {vs : List (PathSegment × Json)}
    (h : FieldsRun step rounds fields state os events state') (hvs : allValues os = some vs)
    (hlater : FieldsRun step rounds' later state' os' events' state'') :
    FieldsRun step (rounds + rounds') (fields ++ later) state (os ++ os') (events ++ events')
      state'' := by
  induction h with
  | last hrun hos =>
      rw [Nat.zero_add]
      exact after hstep hvs hlater hrun hos
  | round hrun hnot _ ih =>
      rw [List.append_assoc, Nat.succ_add]
      refine .round (run_stepSerial_append_of_waits hrun hnot) ?_ (ih hvs hlater)
      rw [outcomes?_append, hnot, Option.bind_none]

end FieldsRun

end Child

/-! ## Runs of mutations -/

/-- The response that the outcomes of the fields of an operation make up. -/
def fieldsResponse (os : List (PathSegment × Outcome)) : Response where
  errors := os.flatMap (fun o => o.2.errors)
  data := (allValues os).map (fun vs => vs.map (fun v => (v.1.text, v.2)))

theorem fieldsResponse_append {os : List (PathSegment × Outcome)} {vs : List (PathSegment × Json)}
    (h : allValues os = some vs) (os' : List (PathSegment × Outcome)) :
    fieldsResponse (os ++ os') =
      ⟨(fieldsResponse os).errors ++ (fieldsResponse os').errors,
        (fieldsResponse os').data.map (vs.map (fun v => (v.1.text, v.2)) ++ ·)⟩ := by
  simp only [fieldsResponse, List.flatMap_append, allValues_append, h, Option.bind_some,
    Option.map_map, Response.mk.injEq, true_and]
  congr 1
  funext vs'
  exact List.map_append

theorem toResponse_join (site : Site ω σ) (os : List (PathSegment × Outcome)) :
    ((Shape.object site).join os).toResponse = fieldsResponse os := by
  unfold Outcome.toResponse fieldsResponse Shape.join
  cases allValues os <;> rfl

/-- How a run ends that responds: the response, all events in order, and the last state. -/
structure Run.Gives (run : Run ω σ) (response : Response) (log : List (Event ω)) (state : σ) :
    Prop where
  responds : run.ending = .responded response
  logs : run.events = log
  leaves : run.state = state

theorem Run.Gives.precededBy {run : Run ω σ} {response : Response} {log : List (Event ω)} {state : σ}
    (h : run.Gives response log state) (events : List (Event ω)) :
    (run.precededBy events).Gives response (events ++ log) state :=
  ⟨h.responds, congrArg (events ++ ·) h.logs, h.leaves⟩

theorem Scope.run_workRound_mutation (scope : Scope ω σ) (levels : Nat) (site : Site ω σ)
    {fields fields' : List (Child ω σ)} {state state' : σ} {events : List (Event ω)}
    (h : (Child.stepSerial (scope.round levels) fields).run state = (fields', state', events)) :
    (scope.workRound levels (.mutation site fields)).run state =
      (.mutation site fields', state', events) := by
  rw [workRound, Action.run_bind _ _ h]
  simp [Action.run, Pure.pure, Action.pure]

namespace Prepared

variable (prepared : Prepared ω σ) (site : Site ω σ) {fields : List (Child ω σ)} {state state' : σ}
  {events : List (Event ω)} {limit : Nat}

/-- A run of the fields is one of the operation, unless it is cut off. -/
theorem gives_of_fieldsRun {rounds : Nat} {os : List (PathSegment × Outcome)}
    (h : Child.FieldsRun (prepared.scope.round prepared.levels) rounds fields state os events state')
    (hlimit : rounds < limit) :
    (prepared.runOn limit (.mutation site fields) state).Gives (fieldsResponse os) events state' := by
  induction h generalizing limit with
  | last hrun hos =>
      cases limit with
      | zero => exact absurd hlimit (Nat.not_lt_zero _)
      | succ limit =>
          simp only [runOn, prepared.scope.run_workRound_mutation _ site hrun, Work.outcome?, hos,
            Option.map_some, toResponse_join]
          exact ⟨rfl, by simp [Run.events], rfl⟩
  | round hrun hnot _ ih =>
      cases limit with
      | zero => exact absurd hlimit (Nat.not_lt_zero _)
      | succ limit =>
          simp only [runOn, prepared.scope.run_workRound_mutation _ site hrun, Work.outcome?, hnot,
            Option.map_none]
          exact (ih (Nat.lt_of_succ_lt_succ hlimit)).precededBy _

/-- A run of a mutation that responds is a run of its fields. -/
theorem exists_fieldsRun {response : Response} :
    ∀ {limit : Nat} {fields : List (Child ω σ)} {state : σ} {events : List (Event ω)},
    (prepared.runOn limit (.mutation site fields) state).Gives response events state' →
      ∃ rounds os, rounds < limit ∧ response = fieldsResponse os ∧
        Child.FieldsRun (prepared.scope.round prepared.levels) rounds fields state os events state'
  | 0, _, _, _, h => by cases h.responds
  | limit + 1, fields, state, _, h => by
      rcases hrun : (Child.stepSerial (prepared.scope.round prepared.levels) fields).run state
        with ⟨fields', t, events⟩
      simp only [runOn, prepared.scope.run_workRound_mutation _ site hrun, Work.outcome?] at h
      cases hos : Child.outcomes? fields' with
      | some os =>
          simp only [hos, Option.map_some, toResponse_join] at h
          obtain ⟨hresponds, rfl, rfl⟩ := h
          refine ⟨0, os, Nat.succ_pos limit, (Ending.responded.inj hresponds).symm, ?_⟩
          simpa [Run.events] using .last hrun hos
      | none =>
          simp only [hos, Option.map_none] at h
          obtain ⟨hresponds, rfl, hstate⟩ := h
          obtain ⟨rounds, os, hlt, hresponse, hfields⟩ :=
            exists_fieldsRun ⟨hresponds, rfl, hstate⟩
          exact ⟨rounds + 1, os, Nat.succ_lt_succ hlt, hresponse, .round hrun hos hfields⟩

end Prepared

/-! ## Parts of a mutation -/

/-- The request for some of the selections of an operation, with all else as it is. -/
def Request.part (request : Request ω) (operation : Operation) (selections : List Selection) :
    Request ω :=
  { request with
    document := ⟨[{ operation with selections }], request.document.fragments⟩
    operationName := none }

namespace Schema

variable {schema : Schema ω σ} {request : Request ω} {operation : Operation} {root : ObjectType ω σ}
  {prepared : Prepared ω σ}

theorem Prepares.part (hp : schema.Prepares request operation root prepared)
    (selections : List Selection) :
    schema.Prepares (request.part operation selections) { operation with selections } root
      { prepared with
        start := prepared.scope.operationWork operation.kind ⟨root, request.root, []⟩ selections } where
  selects := rfl
  executable := hp.executable
  root_eq := hp.root_eq
  binds := hp.binds
  scope_eq := hp.scope_eq
  start_eq := rfl
  levels_eq := hp.levels_eq

/-- A prepared request gives what the run of its work gives. -/
theorem execute_gives_iff (hp : schema.prepare request = .ok prepared) {rounds : Nat}
    {response : Response} {log : List (Event ω)} {state state' : σ} :
    (schema.execute { request with rounds } state).Gives response log state' ↔
      (prepared.runOn rounds prepared.start state).Gives response log state' := by
  have hp' : schema.prepare { request with rounds } = .ok prepared := hp
  match rounds with
  | 0 =>
      simp only [execute, Prepared.runOn]
      constructor <;> (intro h; cases h.responds)
  | limit + 1 => simp only [execute, hp']

theorem Prepares.start_of_mutation (hp : schema.Prepares request operation root prepared)
    (hkind : operation.kind = .mutation) :
    prepared.start = .mutation ⟨root, request.root, []⟩
      (prepared.scope.fieldChildren ⟨root, request.root, []⟩ operation.selections) := by
  rw [hp.start_eq, hkind]
  rfl

/-- A mutation gives what the run of its fields gives. -/
theorem Prepares.gives_of_fieldsRun (hp : schema.Prepares request operation root prepared)
    (hkind : operation.kind = .mutation) {n rounds : Nat} {os : List (PathSegment × Outcome)}
    {log : List (Event ω)} {state state' : σ}
    (h : Child.FieldsRun (prepared.scope.round prepared.levels) n
      (prepared.scope.fieldChildren ⟨root, request.root, []⟩ operation.selections) state os log state')
    (hrounds : n < rounds) :
    (schema.execute { request with rounds } state).Gives (fieldsResponse os) log state' := by
  rw [execute_gives_iff hp.prepare_eq, hp.start_of_mutation hkind]
  exact prepared.gives_of_fieldsRun _ h hrounds

theorem Prepares.exists_fieldsRun (hp : schema.Prepares request operation root prepared)
    (hkind : operation.kind = .mutation) {rounds : Nat} {response : Response} {log : List (Event ω)}
    {state state' : σ} (h : (schema.execute { request with rounds } state).Gives response log state') :
    ∃ n os, n < rounds ∧ response = fieldsResponse os ∧
      Child.FieldsRun (prepared.scope.round prepared.levels) n
        (prepared.scope.fieldChildren ⟨root, request.root, []⟩ operation.selections)
        state os log state' := by
  rw [execute_gives_iff hp.prepare_eq, hp.start_of_mutation hkind] at h
  exact prepared.exists_fieldsRun _ h

theorem Prepares.exists_fieldsRun_part (hp : schema.Prepares request operation root prepared)
    (hkind : operation.kind = .mutation) {selections : List Selection} {rounds : Nat}
    {response : Response} {log : List (Event ω)} {state state' : σ}
    (h : (schema.execute { request.part operation selections with rounds } state).Gives
      response log state') :
    ∃ n os, n < rounds ∧ response = fieldsResponse os ∧
      Child.FieldsRun (prepared.scope.round prepared.levels) n
        (prepared.scope.fieldChildren ⟨root, request.root, []⟩ selections) state os log state' :=
  (hp.part selections).exists_fieldsRun hkind h

/-- A mutation is the run of its first part and then, if that has data, of its second. -/
theorem execute_mutation_append (hp : schema.Prepares request operation root prepared)
    (hkind : operation.kind = .mutation) {ss ts : List Selection}
    (hselections : operation.selections = ss ++ ts)
    (hkeys : ∀ k ∈ groupKeys (prepared.scope.collect root.name ss),
      k ∉ groupKeys (prepared.scope.collect root.name ts))
    {rounds₁ : Nat} {r₁ : Response} {log₁ : List (Event ω)} {state state₁ : σ}
    (h₁ : (schema.execute { request.part operation ss with rounds := rounds₁ } state).Gives
      r₁ log₁ state₁) :
    (r₁.data = none → ∀ rounds, rounds₁ ≤ rounds →
      (schema.execute { request with rounds } state).Gives ⟨r₁.errors, none⟩ log₁ state₁) ∧
    (∀ data₁, r₁.data = some data₁ →
      ∀ (rounds₂ : Nat) (r₂ : Response) (log₂ : List (Event ω)) (state₂ : σ),
        (schema.execute { request.part operation ts with rounds := rounds₂ } state₁).Gives
          r₂ log₂ state₂ →
        ∀ rounds, rounds₁ + rounds₂ ≤ rounds →
          (schema.execute { request with rounds } state).Gives
            ⟨r₁.errors ++ r₂.errors, r₂.data.map (data₁ ++ ·)⟩ (log₁ ++ log₂) state₂) := by
  -- The fields of the mutation are those of its parts.
  have hfields : prepared.scope.fieldChildren ⟨root, request.root, []⟩ operation.selections =
      prepared.scope.fieldChildren ⟨root, request.root, []⟩ ss ++
        prepared.scope.fieldChildren ⟨root, request.root, []⟩ ts := by
    rw [hselections, Scope.fieldChildren, prepared.scope.collect_append root.name hkeys,
      List.map_append]
    rfl
  obtain ⟨n₁, os₁, hn₁, rfl, hrun₁⟩ := hp.exists_fieldsRun_part hkind h₁
  constructor
  · intro hnone rounds hrounds
    have hvalues : allValues os₁ = none := Option.map_eq_none_iff.mp hnone
    have hwhole := hrun₁.append_of_null hvalues
      (prepared.scope.fieldChildren ⟨root, request.root, []⟩ ts)
    have hgives := hp.gives_of_fieldsRun hkind (hfields ▸ hwhole) (Nat.lt_of_lt_of_le hn₁ hrounds)
    rwa [← hnone]
  · intro data₁ hdata rounds₂ r₂ log₂ state₂ h₂ rounds hrounds
    obtain ⟨vs, hvalues, rfl⟩ := Option.map_eq_some_iff.mp hdata
    obtain ⟨n₂, os₂, hn₂, rfl, hrun₂⟩ := hp.exists_fieldsRun_part hkind h₂
    have hwhole := hrun₁.append (prepared.scope.round_keepsQuiet prepared.levels) hvalues hrun₂
    have hlt : n₁ + n₂ < rounds := by omega
    have hgives := hp.gives_of_fieldsRun hkind (hfields ▸ hwhole) hlt
    rwa [fieldsResponse_append hvalues] at hgives

end Schema

/-! ## A counter -/

/-- Counts up by one, after a while. -/
def Resolver.increment : Resolver Unit Nat where
  suspension := some 2
  answer := fun _ count => (.ok (.leaf (.int (count + 1))), count + 1)

/-- Doubles the count at once. -/
def Resolver.double : Resolver Unit Nat where
  suspension := none
  answer := fun _ count => (.ok (.leaf (.int (2 * count))), 2 * count)

/-- Fails after it has counted. -/
def Resolver.failing : Resolver Unit Nat where
  suspension := some 1
  answer := fun _ count => (.error { message := "no can do" }, count + 1)

/-- The root type of mutations that count in the shared state. -/
def counterRoot : ObjectType Unit Nat where
  name := "Mutation"
  fields := [
    ("increment",
      { name := "increment", type := .nonNullNamed "Int", resolver? := some .increment }),
    ("double", { name := "double", type := .nonNullNamed "Int", resolver? := some .double }),
    ("failing", { name := "failing", type := .nonNullNamed "Int", resolver? := some .failing })]

def counterSchema : Schema Unit Nat where
  queryType := "Query"
  mutationType := some "Mutation"
  types := BuiltIn.scalars.map (fun t => (t.name, .scalar t)) ++ [("Mutation", .object counterRoot)]
  possible := []

/-- A mutation of the counter that asks for two fields. -/
def counterMutation (first second : Name) : Operation :=
  .plain .mutation [.plain first [], .plain second []]

def counterRequest (first second : Name) : Request Unit where
  document := ⟨[counterMutation first second], []⟩
  root := .json []
  depth := 1

def counterPrepared (first second : Name) : Prepared Unit Nat :=
  let scope : Scope Unit Nat := ⟨counterSchema, [], [], some defaultWidth⟩
  { scope
    start := scope.operationWork .mutation ⟨counterRoot, .json [], []⟩
      (counterMutation first second).selections
    levels := counterSchema.levels 1 }

theorem counterRequest_prepares (first second : Name) :
    counterSchema.Prepares (counterRequest first second) (counterMutation first second) counterRoot
      (counterPrepared first second) where
  selects := rfl
  executable := by simp [counterMutation, Operation.plain]
  root_eq := rfl
  binds := rfl
  scope_eq := rfl
  start_eq := rfl
  levels_eq := rfl

/-- The run of one field of the mutation by itself. -/
def counterPart (first second field : Name) (rounds count : Nat) : Run Unit Nat :=
  counterSchema.execute { (counterRequest first second).part (counterMutation first second)
    [.plain field []] with rounds } count

theorem counterSchema_execute_mutation_append :
    (counterSchema.execute { counterRequest "increment" "double" with rounds := 4 } 3).Gives
      ⟨[], some [("increment", .int 4), ("double", .int 8)]⟩
      ((counterPart "increment" "double" "increment" 3 3).events ++
        (counterPart "increment" "double" "double" 1 4).events) 8 ∧
    (counterSchema.execute { counterRequest "failing" "double" with rounds := 2 } 3).Gives
      ⟨[{ message := "no can do", path := [.key "failing"] }], none⟩
      (counterPart "failing" "double" "failing" 2 3).events 4 := by
  have hselections : ∀ first second, (counterMutation first second).selections =
      [.plain first []] ++ [.plain second []] := fun _ _ => rfl
  constructor
  · have hincrement : (counterPart "increment" "double" "increment" 3 3).Gives
        ⟨[], some [("increment", .int 4)]⟩ _ 4 := ⟨by decide +kernel, rfl, by decide +kernel⟩
    have hdouble : (counterPart "increment" "double" "double" 1 4).Gives
        ⟨[], some [("double", .int 8)]⟩ _ 8 := ⟨by decide +kernel, rfl, by decide +kernel⟩
    have happend := Schema.execute_mutation_append (counterRequest_prepares "increment" "double") rfl
      (hselections _ _) (by decide +kernel) hincrement
    exact happend.2 _ rfl 1 _ _ _ hdouble 4 (Nat.le_refl 4)
  · have hfailing : (counterPart "failing" "double" "failing" 2 3).Gives
        ⟨[{ message := "no can do", path := [.key "failing"] }], none⟩ _ 4 :=
      ⟨by decide +kernel, rfl, by decide +kernel⟩
    have happend := Schema.execute_mutation_append (counterRequest_prepares "failing" "double") rfl
      (hselections _ _) (by decide +kernel) hfailing
    exact happend.1 rfl 2 (Nat.le_refl 2)

end GraphQLEngine
