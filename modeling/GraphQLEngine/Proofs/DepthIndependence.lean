/-
The depth of a request does not matter, once it is that of its document.

A round comes to the same with more levels, unless it leaves a task just below
its own levels that is more than a leaf (`Scope.agree_round`).  No branch is
ever left there, as completion only makes children that have not begun, and
work that is not finished is left there only if selection sets nest deeper than
the depth of the request.  So a request for an acyclic document has the same
run with every depth from that of its document on (`Schema.execute_deeper`).

Work that is left there stalls the operation for good (`Work.Stalled`).  A run
that was not cut off was therefore not short of depth, whether the document is
acyclic or not (`Schema.execute_deeper_of_ended`).
-/
import GraphQLEngine.Proofs.Depth

namespace GraphQLEngine

variable {ω σ α β : Type}

/-! ## Actions that agree -/

namespace Action

/-- Actions that come to the same, unless the first has a bad result. -/
def Agree (bad : α → Prop) (action action' : Action ω σ α) : Prop :=
  ∀ state, ¬ bad (action.run state).1 → action'.run state = action.run state

theorem agree_refl (bad : α → Prop) (action : Action ω σ α) : Agree bad action action :=
  fun _ _ => rfl

/-- What follows agrees too, if nothing good can follow on a bad result. -/
theorem Agree.bind {bad : α → Prop} {worse : β → Prop} {action action' : Action ω σ α}
    {next next' : α → Action ω σ β} (h : Agree bad action action')
    (hnext : ∀ a, Agree worse (next a) (next' a))
    (hbad : ∀ a, bad a → (next a).Reports fun b _ => worse b) :
    Agree worse (action >>= next) (action' >>= next') := by
  intro state hgood
  have hsame := h state fun hb => hgood (hbad _ hb _)
  have hlater := hnext (action.run state).1 (action.run state).2.1 hgood
  clear hgood
  generalize hrun : action.run state = r at hsame hlater
  obtain ⟨a, state', events⟩ := r
  rw [run_bind action next hrun, run_bind action' next' hsame, hlater]

end Action

/-! ## Steps that agree -/

/-- Some child has a bad task. -/
def Child.Any (bad : Task ω σ → Prop) (children : List (Child ω σ)) : Prop :=
  ∃ position t, Child.mk position t ∈ children ∧ bad t

/-- A field of a mutation has a bad task, and those before it are done, so that it has its turn. -/
inductive Child.Stalled (bad : Task ω σ → Prop) : List (Child ω σ) → Prop
  | here {position : Position} {t : Task ω σ} {later : List (Child ω σ)} :
      bad t → Stalled bad (.mk position t :: later)
  | later {c : Child ω σ} {later : List (Child ω σ)} :
      c.isFinished = true → c.passesNull = false → Stalled bad later → Stalled bad (c :: later)

/-- Steps that come to the same, unless the first leaves a bad task.  What is bad stays so. -/
structure Task.StepsAgree (bad : Task ω σ → Prop) (step step' : Task ω σ → Action ω σ (Task ω σ)) :
    Prop where
  agree : ∀ t, (step t).Agree bad (step' t)
  keeps : ∀ log t, (step t).Ensures log (fun t' => bad t → bad t')

section Steps

variable {bad : Task ω σ → Prop} {step step' : Task ω σ → Action ω σ (Task ω σ)}
  {c : Child ω σ} {children children' : List (Child ω σ)}

theorem Child.Any.of_subset (h : Child.Any bad children) (hsub : children ⊆ children') :
    Child.Any bad children' := by
  obtain ⟨position, t, hmem, hbad⟩ := h
  exact ⟨position, t, hsub hmem, hbad⟩

theorem Child.Any.of_mem (h : Child.Any bad [c]) (hmem : c ∈ children) : Child.Any bad children :=
  h.of_subset (List.cons_subset.mpr ⟨hmem, List.nil_subset _⟩)

theorem Child.agree_step (h : Task.StepsAgree bad step step') :
    ∀ c : Child ω σ, (c.step step).Agree (fun c' => Child.Any bad [c']) (c.step step')
  | .mk position t => by
      refine (h.agree t).bind (fun _ => Action.agree_refl _ _) ?_
      intro t' hbad
      exact Action.reports_pure ⟨position, t', List.mem_singleton.mpr rfl, hbad⟩
  | .absent _ => Action.agree_refl _ _

theorem Child.agree_forEach (h : Task.StepsAgree bad step step') (children : List (Child ω σ)) :
    (Action.forEach (Child.step step) children).Agree (Child.Any bad)
      (Action.forEach (Child.step step') children) := by
  induction children with
  | nil => exact Action.agree_refl _ _
  | cons c rest ih =>
      refine (Child.agree_step h c).bind ?_ ?_
      · intro c'
        refine ih.bind (fun _ => Action.agree_refl _ _) ?_
        intro rest' hrest
        exact Action.reports_pure (hrest.of_subset (List.subset_cons_self _ _))
      · intro c' hc _
        exact hc.of_mem List.mem_cons_self

theorem Child.Stalled.any (h : Child.Stalled bad children) : Child.Any bad children := by
  induction h with
  | @here position t _ hbad => exact ⟨position, t, List.mem_cons_self, hbad⟩
  | later _ _ _ ih => exact ih.of_subset (List.subset_cons_self _ _)

theorem Child.Stalled.of_any (h : Child.Any bad [c]) (later : List (Child ω σ)) :
    Child.Stalled bad (c :: later) := by
  obtain ⟨position, t, hmem, hbad⟩ := h
  obtain rfl := List.mem_singleton.mp hmem
  exact .here hbad

theorem Child.agree_stepSerial (h : Task.StepsAgree bad step step') (children : List (Child ω σ)) :
    (Child.stepSerial step children).Agree (Child.Stalled bad) (Child.stepSerial step' children) := by
  induction children with
  | nil => exact Action.agree_refl _ _
  | cons c later ih =>
      refine (Child.agree_step h c).bind ?_ ?_
      · intro c'
        cases hfinished : c'.isFinished with
        | false => exact Action.agree_refl _ _
        | true =>
            cases hnull : c'.passesNull with
            | true => exact Action.agree_refl _ _
            | false =>
                refine ih.bind (fun _ => Action.agree_refl _ _) ?_
                intro later' hlater
                exact Action.reports_pure (.later hfinished hnull hlater)
      · intro c' hc _
        split
        · exact .of_any hc later
        · split
          · exact .of_any hc []
          · exact .of_any hc _

/-- Turns leave a bad task bad. -/
theorem Turns.reports_stepQueued_bad (h : Task.StepsAgree bad step step') (fuel : Nat) (waited : Bool)
    (queue : List Nat) (hbad : Child.Any bad children) :
    (Turns.stepQueued step fuel waited queue children).Reports (fun r _ => Child.Any bad r.2) := by
  refine .of_ensures fun log => ?_
  refine (Turns.ensures_stepQueued (R := fun t t' => bad t → bad t') (fun _ => id)
    (fun _ _ _ hab hbc => hbc ∘ hab) (h.keeps log) fuel waited queue children).imp ?_
  rintro r ⟨hrel, _⟩
  obtain ⟨position, t, hmem, hbad⟩ := hbad
  obtain ⟨t', hmem', ht⟩ := Child.exists_mk_of_forall₂ hrel hmem
  exact ⟨position, t', hmem', ht hbad⟩

theorem Turns.agree_stepQueued (h : Task.StepsAgree bad step step') :
    ∀ (fuel : Nat) (waited : Bool) (queue : List Nat) (children : List (Child ω σ)),
      (Turns.stepQueued step fuel waited queue children).Agree (fun r => Child.Any bad r.2)
        (Turns.stepQueued step' fuel waited queue children)
  | 0, _, _, _ => Action.agree_refl _ _
  | _ + 1, _, [], _ => Action.agree_refl _ _
  | fuel + 1, waited, i :: queue, children => by
      rw [stepQueued, stepQueued]
      cases hi : children[i]? with
      | none => exact agree_stepQueued h fuel waited queue children
      | some c =>
          refine (Child.agree_step h c).bind ?_ ?_
          · intro c'
            dsimp only
            split
            · exact agree_stepQueued h fuel false queue _
            · split
              · exact Action.agree_refl _ _
              · exact agree_stepQueued h fuel true (queue ++ [i]) _
          · intro c' hc
            have hlt : i < children.length := (List.getElem?_eq_some_iff.mp hi).1
            have hset : Child.Any bad (children.set i c') := hc.of_mem (List.mem_set hlt c')
            dsimp only
            split
            · exact reports_stepQueued_bad h fuel false queue hset
            · split
              · exact Action.reports_pure hset
              · exact reports_stepQueued_bad h fuel true (queue ++ [i]) hset

theorem Turns.agree_step (h : Task.StepsAgree bad step step') (turns : Turns)
    (children : List (Child ω σ)) :
    (turns.step step children).Agree (fun r => Child.Any bad r.2) (turns.step step' children) := by
  cases turns with
  | together =>
      refine (Child.agree_forEach h children).bind (fun _ => Action.agree_refl _ _) ?_
      intro children' hbad
      exact Action.reports_pure hbad
  | queued queue =>
      refine (Turns.agree_stepQueued h _ false queue children).bind (fun _ => Action.agree_refl _ _) ?_
      intro r hbad
      exact Action.reports_pure hbad

end Steps

/-! ## Rounds that agree -/

/-- A task that is more than a leaf of the response. -/
def Task.Inner : Task ω σ → Prop
  | .value _ => False
  | .failed _ => False
  | _ => True

def Task.IsBranch : Task ω σ → Prop
  | .branch _ _ _ => True
  | _ => False

/-- A branch is below the levels, or unfinished work. -/
theorem Task.Below.branch_or_cut : ∀ {levels : Nat} {t : Task ω σ}, t.Below Task.Inner levels →
    t.Below Task.IsBranch levels ∨ t.Cut levels
  | 0, .value _, h => h.elim
  | 0, .failed _, h => h.elim
  | 0, .unstarted _, _ => .inr rfl
  | 0, .waiting _ _, _ => .inr rfl
  | 0, .branch _ _ _, _ => .inl trivial
  | _ + 1, .branch _ _ _, ⟨position, t, hmem, h⟩ =>
      h.branch_or_cut.imp (fun h => ⟨position, t, hmem, h⟩) (fun h => ⟨position, t, hmem, h⟩)

/-- What completion leaves has no branch below the next level. -/
theorem Task.Completed.not_below_branch {path : Path} {t : Task ω σ} (h : t.Completed path)
    (levels : Nat) : ¬ t.Below Task.IsBranch (levels + 1) := by
  cases h with
  | value _ => exact id
  | failed _ => exact id
  | branch _ hfresh =>
      rintro ⟨position, t, hmem, hbelow⟩
      cases hfresh _ hmem with
      | typename key name => cases levels <;> exact hbelow
      | job hpath => cases levels <;> exact hbelow

namespace Scope

variable {levels levels' : Nat}

/-- No round leaves a branch below its levels. -/
theorem roundRel_not_below_branch (scope : Scope ω σ) (log : List (Event ω)) :
    scope.RoundRel log (fun levels t t' =>
      ¬ t.Below Task.IsBranch levels → ¬ t'.Below Task.IsBranch levels) where
  refl _ := id
  trans _ _ _ h k := k ∘ h
  begun h _ := by
    cases h with
    | item _ _ _ _ => exact (scope.completed_completeAnswer _ _ _ _).not_below_branch _
    | refused _ => exact id
    | answered _ _ => exact (scope.completed_completeAnswer _ _ _ _).not_below_branch _
    | waiting _ _ _ => exact id
  waited _ := id
  resumed h _ := by
    obtain ⟨answer, _, rfl⟩ := h
    exact (scope.completed_completeAnswer _ _ _ _).not_below_branch _
  branched h _ hbefore := by
    rintro ⟨position, t', hmem', hbelow⟩
    obtain ⟨t, hmem, ht⟩ := Child.exists_mk_of_forall₂_right h hmem'
    exact ht (fun hbelow => hbefore ⟨position, t, hmem, hbelow⟩) hbelow

theorem agree_stepChildren {P : Task ω σ → Prop} {step step' : Task ω σ → Action ω σ (Task ω σ)}
    (h : Task.StepsAgree (Task.Below P levels) step step') (t : Task ω σ) :
    (stepChildren step t).Agree (Task.Below P (levels + 1)) (stepChildren step' t) := by
  cases t with
  | value _ => exact Action.agree_refl _ _
  | failed _ => exact Action.agree_refl _ _
  | unstarted _ => exact Action.agree_refl _ _
  | waiting _ _ => exact Action.agree_refl _ _
  | branch _ turns children =>
      refine (Turns.agree_step h turns children).bind (fun _ => Action.agree_refl _ _) ?_
      intro r hbad
      exact Action.reports_pure hbad

/-- A round comes to the same with more levels, unless it leaves more than leaves below its own. -/
theorem agree_round (scope : Scope ω σ) (hle : levels ≤ levels') (t : Task ω σ) :
    (scope.round levels t).Agree (Task.Below Task.Inner levels) (scope.round levels' t) := by
  induction levels generalizing levels' t with
  | zero =>
      cases t with
      | value _ => cases levels' <;> exact Action.agree_refl _ _
      | failed _ => cases levels' <;> exact Action.agree_refl _ _
      | unstarted _ => exact fun _ hgood => absurd trivial hgood
      | waiting _ _ => exact fun _ hgood => absurd trivial hgood
      | branch _ _ _ => exact fun _ hgood => absurd trivial hgood
  | succ levels ih =>
      obtain ⟨levels', rfl⟩ : ∃ n, levels' = n + 1 := ⟨levels' - 1, by omega⟩
      have hstep : Task.StepsAgree (Task.Below Task.Inner levels) (scope.round levels)
          (scope.round levels') :=
        ⟨ih (Nat.le_of_succ_le_succ hle), fun log => (scope.roundRel_below log _).round levels⟩
      have below := agree_stepChildren hstep
      cases t with
      | value _ => exact Action.agree_refl _ _
      | failed _ => exact Action.agree_refl _ _
      | unstarted job =>
          exact (Action.agree_refl (fun _ => False) (scope.begin job)).bind below
            fun _ hbad => hbad.elim
      | waiting rounds call =>
          cases rounds with
          | zero =>
              exact (Action.agree_refl (fun _ => False) (scope.resume call)).bind below
                fun _ hbad => hbad.elim
          | succ rounds => exact Action.agree_refl _ _
      | branch shape turns children => exact below (.branch shape turns children)

end Scope

/-! ## Operations that agree -/

/-- A task that stands just below the levels of an operation has a property. -/
def Work.Below (P : Task ω σ → Prop) (levels : Nat) : Work ω σ → Prop
  | .query t => t.Below P (levels + 1)
  | .mutation _ fields => Child.Any (Task.Below P levels) fields

/-- A task that stands just below the levels has its turn, and has a property. -/
def Work.Stalled (P : Task ω σ → Prop) (levels : Nat) : Work ω σ → Prop
  | .query t => t.Below P (levels + 1)
  | .mutation _ fields => Child.Stalled (Task.Below P levels) fields

section Stalled

variable {levels : Nat} {work : Work ω σ}

theorem Work.Stalled.branch_or_unfinished (h : work.Stalled Task.Inner levels) :
    work.Below Task.IsBranch levels ∨ work.Stalled (fun t => t.outcome? = none) levels := by
  cases work with
  | query t => exact Task.Below.branch_or_cut h
  | mutation site fields =>
      have hfields : Child.Stalled (Task.Below Task.Inner levels) fields := h
      clear h
      induction hfields with
      | @here position t _ hinner =>
          exact hinner.branch_or_cut.imp (fun h => ⟨position, t, List.mem_cons_self, h⟩) .here
      | later hfinished hnull _ ih =>
          refine ih.imp ?_ (Child.Stalled.later hfinished hnull)
          rintro ⟨position, t, hmem, h⟩
          exact ⟨position, t, List.mem_cons_of_mem _ hmem, h⟩

theorem Work.Stalled.cut (h : work.Stalled (fun t => t.outcome? = none) levels) : work.Cut levels := by
  cases work with
  | query t => exact h
  | mutation site fields => exact Child.Stalled.any h

/-- Work that stalls is not finished. -/
theorem Work.Stalled.outcome?_eq_none (h : work.Stalled (fun t => t.outcome? = none) levels) :
    work.outcome? = none := by
  cases work with
  | query t =>
      cases ho : t.outcome? with
      | none => exact ho
      | some o => exact absurd h (Scope.not_cut_of_finished ho)
  | mutation site fields =>
      have hfields : Child.outcomes? fields = none := by
        cases hos : Child.outcomes? fields with
        | none => rfl
        | some os =>
            obtain ⟨position, t, hmem, hcut⟩ := Child.Stalled.any h
            obtain ⟨o, ho⟩ := Option.isSome_iff_exists.mp (Child.isFinished_of_mem hos _ hmem)
            exact absurd hcut (Scope.not_cut_of_finished ho)
      rw [Work.outcome?, hfields, Option.map_none]

end Stalled

namespace Scope

variable {levels levels' : Nat}

theorem not_below_branch_operationWork (scope : Scope ω σ) (levels : Nat) (kind : OperationKind)
    (site : Site ω σ) (selections : List Selection) :
    ¬ (scope.operationWork kind site selections).Below Task.IsBranch levels := by
  cases kind with
  | query => exact (scope.completed_objectTask site selections).not_below_branch levels
  | subscription => exact (scope.completed_objectTask site selections).not_below_branch levels
  | mutation => exact (scope.completed_objectTask site selections).not_below_branch levels

theorem agree_workRound (scope : Scope ω σ) (hle : levels ≤ levels') (work : Work ω σ) :
    (scope.workRound levels work).Agree (Work.Stalled Task.Inner levels)
      (scope.workRound levels' work) := by
  cases work with
  | query t =>
      refine (scope.agree_round (Nat.succ_le_succ hle) t).bind (fun _ => Action.agree_refl _ _) ?_
      intro t' hbad
      exact Action.reports_pure hbad
  | mutation site fields =>
      have hstep : Task.StepsAgree (Task.Below Task.Inner levels) (scope.round levels)
          (scope.round levels') :=
        ⟨scope.agree_round hle, fun log => (scope.roundRel_below log _).round levels⟩
      refine (Child.agree_stepSerial hstep fields).bind (fun _ => Action.agree_refl _ _) ?_
      intro fields' hbad
      exact Action.reports_pure hbad

theorem reports_workRound_not_below_branch (scope : Scope ω σ) {work : Work ω σ}
    (h : ¬ work.Below Task.IsBranch levels) :
    (scope.workRound levels work).Reports (fun work' _ => ¬ work'.Below Task.IsBranch levels) := by
  refine .of_ensures fun log => ?_
  have hround := (scope.roundRel_not_below_branch log).round
  cases work with
  | query t =>
      refine (hround (levels + 1) t).bind ?_
      intro t' ht
      exact Action.ensures_pure (ht h)
  | mutation site fields =>
      refine (Child.ensures_stepSerial (hround levels) fields).bind ?_
      intro fields' hfields
      refine Action.ensures_pure ?_
      rintro ⟨position, t', hmem', hbelow⟩
      obtain ⟨t, hmem, ht⟩ := hfields.exists_mk (fun _ => id) hmem'
      exact ht (fun hbelow => h ⟨position, t, hmem, hbelow⟩) hbelow

theorem reports_stepSerial_stalled (scope : Scope ω σ) {P : Task ω σ → Prop}
    {fields : List (Child ω σ)} (h : Child.Stalled (Task.Below P levels) fields) :
    (Child.stepSerial (scope.round levels) fields).Reports
      (fun fields' _ => Child.Stalled (Task.Below P levels) fields') := by
  induction h with
  | @here position t later hbelow =>
      have hkeeps : (scope.round levels t).Reports (fun t' _ => t'.Below P levels) :=
        .of_ensures fun log => ((scope.roundRel_below log P).round levels t).imp fun _ h => h hbelow
      refine (Child.reports_step_mk hkeeps position).bind ?_
      rintro _ _ ⟨t', rfl, hbelow'⟩
      split
      · exact Action.reports_pure (.here hbelow')
      · split
        · exact Action.reports_pure (.here hbelow')
        · intro state
          exact .here hbelow'
  | @later c later hfinished hnull _ ih =>
      -- The first field is done already, and its step changes nothing.
      refine (Child.quietly_step (scope.round_keepsQuiet levels) hfinished).reports.bind ?_
      rintro c' _ ⟨hsame, rfl⟩
      have hfinished' := hsame.isFinished_eq.trans hfinished
      have hnull' := hsame.passesNull_eq.trans hnull
      simp only [hfinished', hnull', Bool.not_true, Bool.false_eq_true, if_false]
      refine ih.bind ?_
      intro later' _ hlater
      exact Action.reports_pure (.later hfinished' hnull' hlater)

/-- Work that stalls goes on to stall. -/
theorem reports_workRound_stalled (scope : Scope ω σ) {P : Task ω σ → Prop} {work : Work ω σ}
    (h : work.Stalled P levels) :
    (scope.workRound levels work).Reports (fun work' _ => work'.Stalled P levels) := by
  cases work with
  | query t =>
      have hkeeps : (scope.round (levels + 1) t).Reports (fun t' _ => t'.Below P (levels + 1)) :=
        .of_ensures fun log =>
          ((scope.roundRel_below log P).round (levels + 1) t).imp fun _ hkeeps => hkeeps h
      refine hkeeps.bind ?_
      intro t' _ hbelow
      exact Action.reports_pure hbelow
  | mutation site fields =>
      refine (scope.reports_stepSerial_stalled h).bind ?_
      intro fields' _ hstalled
      exact Action.reports_pure hstalled

end Scope

/-! ## Runs -/

/-- Runs of more levels are the same, if no work on the way stands below the levels. -/
theorem Prepared.runOn_deeper {prepared : Prepared ω σ} (hfresh : prepared.start.Fresh)
    (hcut : ∀ now work courses,
      prepared.scope.WorkUnfolds now prepared.levels prepared.start work courses →
      ¬ work.Cut prepared.levels)
    {levels : Nat} (hle : prepared.levels ≤ levels) :
    ∀ (limit : Nat) {now : Nat} {work : Work ω σ} {courses : List (Course ω)} (state : σ),
      prepared.scope.WorkUnfolds now prepared.levels prepared.start work courses →
      ¬ work.Below Task.IsBranch prepared.levels →
      Prepared.runOn { prepared with levels } limit work state = prepared.runOn limit work state
  | 0, _, _, _, _, _, _ => rfl
  | limit + 1, now, work, courses, state, h, hbranch => by
      obtain ⟨courses', hcourses, _, _⟩ := Scope.reports_workRound hfresh h state
      have hbranch' := prepared.scope.reports_workRound_not_below_branch hbranch state
      have hsame : (prepared.scope.workRound levels work).run state =
          (prepared.scope.workRound prepared.levels work).run state := by
        refine prepared.scope.agree_workRound hle work state ?_
        intro hinner
        exact hinner.branch_or_unfinished.elim hbranch' fun h => hcut _ _ _ hcourses h.cut
      have hlater := runOn_deeper hfresh hcut hle limit
        ((prepared.scope.workRound prepared.levels work).run state).2.1 hcourses hbranch'
      rw [runOn, runOn]
      simp only [hsame, hlater]

/-- A run of work that stalls is cut off. -/
theorem Prepared.runOn_of_stalled {prepared : Prepared ω σ} :
    ∀ (limit : Nat) {work : Work ω σ} (state : σ),
      work.Stalled (fun t => t.outcome? = none) prepared.levels →
      (prepared.runOn limit work state).ending = .cancelled
  | 0, _, _, _ => rfl
  | limit + 1, work, state, h => by
      have hnext := prepared.scope.reports_workRound_stalled h state
      have hlater := runOn_of_stalled limit
        ((prepared.scope.workRound prepared.levels work).run state).2.1 hnext
      rw [runOn]
      simp only [hnext.outcome?_eq_none]
      exact hlater

/-- Runs of more levels are the same, if the run was not cut off. -/
theorem Prepared.runOn_deeper_of_ended {prepared : Prepared ω σ} {levels : Nat}
    (hle : prepared.levels ≤ levels) :
    ∀ (limit : Nat) {work : Work ω σ} (state : σ), ¬ work.Below Task.IsBranch prepared.levels →
      (prepared.runOn limit work state).ending ≠ .cancelled →
      Prepared.runOn { prepared with levels } limit work state = prepared.runOn limit work state
  | 0, _, _, _, _ => rfl
  | limit + 1, work, state, hbranch, hended => by
      have hbranch' := prepared.scope.reports_workRound_not_below_branch hbranch state
      have hlater := runOn_deeper_of_ended hle limit
        ((prepared.scope.workRound prepared.levels work).run state).2.1 hbranch'
      rw [runOn] at hended
      have hsame : (prepared.scope.workRound levels work).run state =
          (prepared.scope.workRound prepared.levels work).run state := by
        refine prepared.scope.agree_workRound hle work state ?_
        intro hinner
        -- Nothing but unfinished work is left below the levels, and the run would be cut off.
        have hstalled := hinner.branch_or_unfinished.resolve_left hbranch'
        simp only [hstalled.outcome?_eq_none] at hended
        exact hended (runOn_of_stalled limit _ hstalled)
      rw [runOn, runOn]
      simp only [hsame]
      cases hout : ((prepared.scope.workRound prepared.levels work).run state).1.outcome? with
      | some o => rfl
      | none =>
          simp only [hout] at hended ⊢
          rw [hlater hended]

namespace Schema

theorem prepare_depth (schema : Schema ω σ) (request : Request ω) (depth : Nat) :
    schema.prepare { request with depth } =
      (schema.prepare request).map fun prepared => { prepared with levels := schema.levels depth } := by
  rw [prepare, prepare]
  cases request.document.selectOperation request.operationName with
  | error reason => rfl
  | ok operation =>
      simp only [bind, Except.bind]
      split
      · rfl
      · cases schema.root? operation.kind with
        | none => rfl
        | some root =>
            cases schema.coerceVariables operation request.variableValues with
            | error reason => rfl
            | ok bindings => rfl

theorem levels_mono (schema : Schema ω σ) {depth depth' : Nat} (hle : depth ≤ depth') :
    schema.levels depth ≤ schema.levels depth' :=
  Nat.mul_le_mul_right _ (Nat.add_le_add_right hle 2)

/-- A run that was not cut off is the same with more depth. -/
theorem execute_deeper_of_ended (schema : Schema ω σ) (request : Request ω) {state : σ}
    (hended : (schema.execute request state).ending ≠ .cancelled) {depth : Nat}
    (hle : request.depth ≤ depth) :
    schema.execute { request with depth } state = schema.execute request state := by
  have hprepare' := schema.prepare_depth request depth
  rw [execute] at hended
  rw [execute, execute, hprepare']
  cases hprepare : schema.prepare request with
  | error reason => rfl
  | ok prepared =>
      cases hrounds : request.rounds with
      | zero => rfl
      | succ limit =>
          obtain ⟨operation, root, hp⟩ := schema.exists_of_prepare hprepare
          have hlevels : prepared.levels ≤ schema.levels depth :=
            hp.levels_eq ▸ schema.levels_mono hle
          rw [hprepare, hrounds] at hended
          refine Prepared.runOn_deeper_of_ended hlevels (limit + 1) state ?_ hended
          rw [hp.start_eq]
          exact prepared.scope.not_below_branch_operationWork _ _ _ _

/-- With more depth than its document has, a request has the same run. -/
theorem execute_deeper (schema : Schema ω σ) (request : Request ω)
    (hacyclic : request.document.Acyclic)
    (hdepth : request.document.depthBound ≤ request.depth) {depth : Nat} (hle : request.depth ≤ depth)
    (state : σ) : schema.execute { request with depth } state = schema.execute request state := by
  have hprepare' := schema.prepare_depth request depth
  rw [execute, execute, hprepare']
  cases hprepare : schema.prepare request with
  | error reason => rfl
  | ok prepared =>
      cases hrounds : request.rounds with
      | zero => rfl
      | succ limit =>
          obtain ⟨operation, root, hp⟩ := schema.exists_of_prepare hprepare
          have hcut : ∀ now work courses,
              prepared.scope.WorkUnfolds now prepared.levels prepared.start work courses →
              ¬ work.Cut prepared.levels := by
            intro now work courses h hcut
            obtain ⟨job, hjob, hdeep⟩ := hp.exists_deep_of_cut h hcut
            have hbound := hp.fieldDepth_le hacyclic h hjob
            omega
          have hstart := hp.start_eq
          have hlevels : prepared.levels ≤ schema.levels depth :=
            hp.levels_eq ▸ schema.levels_mono hle
          obtain ⟨courses, hcourses, _⟩ := prepared.scope.exists_workUnfolds_operationWork
            prepared.levels operation.kind ⟨root, request.root, []⟩ operation.selections
          rw [← hstart] at hcourses
          refine Prepared.runOn_deeper ?_ hcut hlevels (limit + 1) state hcourses ?_
          · rw [hstart]
            exact prepared.scope.fresh_operationWork _ _ _
          · rw [hstart]
            exact prepared.scope.not_below_branch_operationWork _ _ _ _

end Schema

end GraphQLEngine
