/-
What a round can do to the work.

Resolvers are arbitrary, so a round is described by what holds of its result
whatever the shared state is, given only the events that it reports.  The main
statement, `RoundRel.round`, packages the induction over levels and over turns:
a relation between tasks that survives each single thing that can happen to a
task survives a round.  The fields of a mutation are described by
`Child.Serially`.

Nothing here says in which order events are reported, or the state is passed
on.
-/
import GraphQLEngine.Execution.Run
import Mathlib.Data.List.Forall2

namespace GraphQLEngine

variable {ω σ α β : Type}

/-! ## Results of actions -/

namespace Action

/-- Whatever state an action meets, its result has a property, if its events are in the log. -/
def Ensures (log : List (Event ω)) (P : α → Prop) (action : Action ω σ α) : Prop :=
  ∀ state, (action.run state).2.2 ⊆ log → P (action.run state).1

variable {log : List (Event ω)}

theorem ensures_pure {P : α → Prop} {a : α} (h : P a) : (pure a : Action ω σ α).Ensures log P :=
  fun _ _ => h

theorem Ensures.bind {P : α → Prop} {Q : β → Prop} {action : Action ω σ α}
    {next : α → Action ω σ β} (h : action.Ensures log P)
    (k : ∀ a, P a → (next a).Ensures log Q) : (action >>= next).Ensures log Q :=
  fun state hlog =>
    have ⟨before, after⟩ := List.append_subset.mp hlog
    k _ (h state before) _ after

theorem Ensures.and {P Q : α → Prop} {action : Action ω σ α} (h : action.Ensures log P)
    (k : action.Ensures log Q) : action.Ensures log (fun a => P a ∧ Q a) :=
  fun state hlog => ⟨h state hlog, k state hlog⟩

theorem Ensures.imp {P Q : α → Prop} {action : Action ω σ α} (h : action.Ensures log P)
    (k : ∀ a, P a → Q a) : action.Ensures log Q :=
  fun state hlog => k _ (h state hlog)

theorem ensures_report (phase : Phase) (info : ResolveInfo ω) :
    (report phase info : Action ω σ Unit).Ensures log (fun _ => True) :=
  fun _ _ => trivial

theorem ensures_forEach {R : α → β → Prop} {f : α → Action ω σ β}
    (h : ∀ a, (f a).Ensures log (R a)) (l : List α) :
    (forEach f l).Ensures log (List.Forall₂ R l) := by
  induction l with
  | nil => exact ensures_pure .nil
  | cons a rest ih =>
      refine (h a).bind ?_
      intro b hb
      refine ih.bind ?_
      intro bs hbs
      exact ensures_pure (.cons hb hbs)

end Action

/-! ## Answers -/

/-- An answer that a resolver gave, by the log, and that it can give in some state. -/
def Resolver.Answers (log : List (Event ω)) (resolver : Resolver ω σ) (info : ResolveInfo ω)
    (answer : Except ResolverFailure (Resolved ω)) : Prop :=
  (∃ phase, ⟨phase, info, some answer⟩ ∈ log) ∧ ∃ state, (resolver.answer info state).1 = answer

/-- An answer for a field: its resolver's, or the one read from JSON data. -/
def FieldDefinition.Answers (log : List (Event ω)) (definition : FieldDefinition ω σ)
    (info : ResolveInfo ω) (answer : Except ResolverFailure (Resolved ω)) : Prop :=
  match definition.resolver? with
  | none => answer = info.defaultAnswer
  | some resolver => resolver.Answers log info answer

theorem Action.ensures_ask (log : List (Event ω)) (phase : Phase) (resolver : Resolver ω σ)
    (info : ResolveInfo ω) : (Action.ask phase resolver info).Ensures log (resolver.Answers log info) :=
  fun state hlog => ⟨⟨phase, hlog (List.mem_singleton.mpr rfl)⟩, state, rfl⟩

namespace Scope

/-- What a task can be once a suspended call is answered. -/
def Resumes (scope : Scope ω σ) (log : List (Event ω)) (call : Call ω σ) (task : Task ω σ) : Prop :=
  ∃ answer, call.resolver.Answers log call.info answer ∧
    task = scope.completeAnswer call.group call.type call.info.path answer

/-- What the task of a job can be once it has begun. -/
inductive Begins (scope : Scope ω σ) (log : List (Event ω)) : Job ω σ → Task ω σ → Prop
  | item (group : FieldGroup) (type : TypeRef) (path : Path)
      (answer : Except ResolverFailure (Resolved ω)) :
      Begins scope log (.item group type path answer) (scope.completeAnswer group type path answer)
  | refused {site : Site ω σ} {group : FieldGroup} {definition : FieldDefinition ω σ}
      {fault : FieldFault} :
      scope.coerceArguments group.first definition.arguments = .error fault →
      Begins scope log (.field site group definition) (fault.toTask (site.fieldPath group) group)
  | answered {site : Site ω σ} {group : FieldGroup} {definition : FieldDefinition ω σ}
      {arguments : JsonObject} {answer : Except ResolverFailure (Resolved ω)} :
      scope.coerceArguments group.first definition.arguments = .ok arguments →
      definition.Answers log (site.info group arguments) answer →
      Begins scope log (.field site group definition)
        (scope.completeAnswer group definition.type (site.fieldPath group) answer)
  | waiting {site : Site ω σ} {group : FieldGroup} {definition : FieldDefinition ω σ}
      {arguments : JsonObject} {resolver : Resolver ω σ} {rounds : Nat} :
      scope.coerceArguments group.first definition.arguments = .ok arguments →
      definition.resolver? = some resolver →
      resolver.suspension = some (rounds + 1) →
      Begins scope log (.field site group definition)
        (.waiting rounds ⟨site.info group arguments, resolver, definition.type, group⟩)

variable {log : List (Event ω)}

theorem ensures_answer (scope : Scope ω σ) (phase : Phase) (call : Call ω σ) :
    (scope.answer phase call).Ensures log (scope.Resumes log call) := by
  refine (Action.ensures_ask log phase call.resolver call.info).bind ?_
  intro answer h
  exact Action.ensures_pure ⟨answer, h, rfl⟩

theorem ensures_resume (scope : Scope ω σ) (call : Call ω σ) :
    (scope.resume call).Ensures log (scope.Resumes log call) :=
  scope.ensures_answer .ended call

/-- A call is answered in the same round, or suspended for as long as its resolver asks. -/
theorem ensures_call (scope : Scope ω σ) (call : Call ω σ) :
    (scope.call call).Ensures log (fun task => scope.Resumes log call task ∨
      ∃ rounds, call.resolver.suspension = some (rounds + 1) ∧ task = .waiting rounds call) := by
  rw [Scope.call]
  match h : call.resolver.suspension with
  | none =>
      intro state hlog
      exact .inl (scope.ensures_answer .called call state hlog)
  | some 0 =>
      refine (Action.ensures_report .started call.info).bind ?_
      intro _ _ state hlog
      exact .inl (scope.ensures_resume call state hlog)
  | some (rounds + 1) =>
      refine (Action.ensures_report .started call.info).bind ?_
      intro _ _
      exact Action.ensures_pure (.inr ⟨rounds, rfl, rfl⟩)

theorem ensures_begin (scope : Scope ω σ) :
    ∀ job : Job ω σ, (scope.begin job).Ensures log (scope.Begins log job)
  | .item group type path answer => Action.ensures_pure (.item group type path answer)
  | .field site group definition => by
      simp only [begin, beginField]
      match hargs : scope.coerceArguments group.first definition.arguments with
      | .error fault => exact Action.ensures_pure (.refused hargs)
      | .ok arguments =>
          simp only [resolve]
          match hres : definition.resolver? with
          | none =>
              refine Action.ensures_pure (.answered hargs ?_)
              simp [FieldDefinition.Answers, hres]
          | some resolver =>
              intro state hlog
              rcases scope.ensures_call ⟨site.info group arguments, resolver, definition.type, group⟩
                state hlog with ⟨answer, ha, ht⟩ | ⟨rounds, hr, ht⟩
              · rw [ht]
                exact .answered hargs (by simpa [FieldDefinition.Answers, hres] using ha)
              · rw [ht]
                exact .waiting hargs hres hr

end Scope

/-! ## Steps of children -/

/-- Children at one position whose tasks are related, or one and the same absent field. -/
inductive Child.Rel (R : Task ω σ → Task ω σ → Prop) : Child ω σ → Child ω σ → Prop
  | mk {position : Position} {task task' : Task ω σ} :
      R task task' → Child.Rel R (.mk position task) (.mk position task')
  | absent {key : Name} : Child.Rel R (.absent key) (.absent key)

namespace Child

variable {log : List (Event ω)} {R : Task ω σ → Task ω σ → Prop}
  {step : Task ω σ → Action ω σ (Task ω σ)}

theorem Rel.refl (h : ∀ t, R t t) : ∀ c, Child.Rel R c c
  | .mk _ t => .mk (h t)
  | .absent _ => .absent

theorem Rel.trans (h : ∀ a b c, R a b → R b c → R a c) {a b c : Child ω σ} :
    Child.Rel R a b → Child.Rel R b c → Child.Rel R a c := by
  intro hab hbc
  cases hab with
  | mk hab => cases hbc with | mk hbc => exact .mk (h _ _ _ hab hbc)
  | absent => exact hbc

theorem Rel.flip {c c' : Child ω σ} (h : Child.Rel R c c') :
    Child.Rel (flip R) c' c := by
  cases h with
  | mk h => exact .mk h
  | absent => exact .absent

theorem ensures_step (h : ∀ t, (step t).Ensures log (R t)) :
    ∀ c : Child ω σ, (c.step step).Ensures log (Child.Rel R c)
  | .mk _ t => (h t).bind fun _ ht => Action.ensures_pure (.mk ht)
  | .absent _ => Action.ensures_pure .absent

theorem forall₂_refl (h : ∀ t, R t t) (children : List (Child ω σ)) :
    List.Forall₂ (Child.Rel R) children children := by
  induction children with
  | nil => exact .nil
  | cons c rest ih => exact .cons (Rel.refl h c) ih

theorem forall₂_trans (h : ∀ a b c, R a b → R b c → R a c) {as bs cs : List (Child ω σ)}
    (hab : List.Forall₂ (Child.Rel R) as bs) (hbc : List.Forall₂ (Child.Rel R) bs cs) :
    List.Forall₂ (Child.Rel R) as cs := by
  induction hab generalizing cs with
  | nil => exact hbc
  | cons hab _ ih =>
      cases hbc with
      | cons hbc hrest => exact .cons (Rel.trans h hab hbc) (ih hrest)

theorem exists_mk_of_forall₂ {position : Position} {t : Task ω σ}
    {children children' : List (Child ω σ)} (h : List.Forall₂ (Child.Rel R) children children')
    (hmem : .mk position t ∈ children) : ∃ t', .mk position t' ∈ children' ∧ R t t' := by
  induction h with
  | nil => cases hmem
  | cons hc _ ih =>
      rcases List.mem_cons.mp hmem with heq | hmem
      · cases heq
        cases hc with
        | mk hc => exact ⟨_, List.mem_cons_self, hc⟩
      · obtain ⟨t', hmem', ht⟩ := ih hmem
        exact ⟨t', List.mem_cons_of_mem _ hmem', ht⟩

theorem exists_mk_of_forall₂_right {position : Position} {t' : Task ω σ}
    {children children' : List (Child ω σ)} (h : List.Forall₂ (Child.Rel R) children children')
    (hmem : .mk position t' ∈ children') : ∃ t, .mk position t ∈ children ∧ R t t' :=
  exists_mk_of_forall₂ (h.flip.imp fun _ _ hc => Rel.flip hc) hmem

/-- Putting a related child in the place of one. -/
theorem forall₂_set (h : ∀ t, R t t) {c c' : Child ω σ} (hc : Child.Rel R c c') :
    ∀ {children : List (Child ω σ)} {i : Nat}, children[i]? = some c →
      List.Forall₂ (Child.Rel R) children (children.set i c')
  | [], _, hi => by simp at hi
  | _ :: rest, 0, hi => by
      simp only [List.getElem?_cons_zero, Option.some.injEq] at hi
      exact hi ▸ .cons hc (forall₂_refl h rest)
  | c₀ :: rest, i + 1, hi => by
      simp only [List.getElem?_cons_succ] at hi
      exact .cons (Rel.refl h c₀) (forall₂_set h hc hi)

/-- The fields of a mutation after a round: up to the first that does not finish every one has had a
step, and none is left after one that passes a null on. -/
inductive Serially (R : Task ω σ → Task ω σ → Prop) : List (Child ω σ) → List (Child ω σ) → Prop
  | nil : Serially R [] []
  | wait {c c' : Child ω σ} {later : List (Child ω σ)} :
      Child.Rel R c c' → c'.isFinished = false → Serially R (c :: later) (c' :: later)
  | stop {c c' : Child ω σ} {later : List (Child ω σ)} :
      Child.Rel R c c' → c'.isFinished = true → c'.passesNull = true →
      Serially R (c :: later) [c']
  | next {c c' : Child ω σ} {later later' : List (Child ω σ)} :
      Child.Rel R c c' → c'.isFinished = true → c'.passesNull = false →
      Serially R later later' → Serially R (c :: later) (c' :: later')

/-- Every field that is left of a mutation is there from before. -/
theorem Serially.exists_mk (refl : ∀ t, R t t)
    {fields fields' : List (Child ω σ)} (h : Child.Serially R fields fields') {position : Position}
    {t' : Task ω σ} (hmem : .mk position t' ∈ fields') : ∃ t, .mk position t ∈ fields ∧ R t t' := by
  have first : ∀ {c : Child ω σ} {later : List (Child ω σ)}, Child.Rel R c (.mk position t') →
      ∃ t, .mk position t ∈ c :: later ∧ R t t' := by
    intro c later hc
    cases hc with
    | mk ht => exact ⟨_, List.mem_cons_self, ht⟩
  induction h with
  | nil => cases hmem
  | wait hc _ =>
      rcases List.mem_cons.mp hmem with rfl | hmem
      · exact first hc
      · exact ⟨t', List.mem_cons_of_mem _ hmem, refl t'⟩
  | stop hc _ _ =>
      obtain rfl := List.mem_singleton.mp hmem
      exact first hc
  | next hc _ _ _ ih =>
      rcases List.mem_cons.mp hmem with rfl | hmem
      · exact first hc
      · obtain ⟨t, hmem, ht⟩ := ih hmem
        exact ⟨t, List.mem_cons_of_mem _ hmem, ht⟩

theorem ensures_stepSerial (h : ∀ t, (step t).Ensures log (R t)) (children : List (Child ω σ)) :
    (stepSerial step children).Ensures log (Serially R children) := by
  induction children with
  | nil => exact Action.ensures_pure .nil
  | cons c later ih =>
      refine (ensures_step h c).bind ?_
      intro c' hc
      match hf : c'.isFinished, hn : c'.passesNull with
      | false, _ => exact Action.ensures_pure (.wait hc hf)
      | true, true => exact Action.ensures_pure (.stop hc hf hn)
      | true, false =>
          refine Action.Ensures.bind ih ?_
          intro later' hlater
          exact Action.ensures_pure (.next hc hf hn hlater)

end Child

/-! ## Turns -/

namespace Turns

/-- Every unfinished child gets a turn. -/
def Covers (turns : Turns) (children : List (Child ω σ)) : Prop :=
  match turns with
  | .together => True
  | .queued queue =>
    ∀ (i : Nat) (c : Child ω σ), children[i]? = some c → c.isFinished = false → i ∈ queue

variable {log : List (Event ω)} {R : Task ω σ → Task ω σ → Prop}
  {step : Task ω σ → Action ω σ (Task ω σ)}

theorem covers_queued_set {i : Nat} {queue queue' : List Nat} {children : List (Child ω σ)}
    {c' : Child ω σ} (hc : (Turns.queued (i :: queue)).Covers children)
    (hq : ∀ j ∈ queue, j ∈ queue') (hi : c'.isFinished = false → i ∈ queue') :
    (Turns.queued queue').Covers (children.set i c') := by
  intro j d hj hd
  by_cases hij : i = j
  · subst hij
    have hlt : i < children.length := by
      simpa using (List.getElem?_eq_some_iff.mp hj).1
    rw [List.getElem?_set_self hlt, Option.some.injEq] at hj
    exact hi (hj ▸ hd)
  · rw [List.getElem?_set_ne hij] at hj
    rcases List.mem_cons.mp (hc j d hj hd) with h | h
    · exact absurd h.symm hij
    · exact hq j h

theorem covers_queued_tail {i : Nat} {queue : List Nat} {children : List (Child ω σ)}
    (hc : (Turns.queued (i :: queue)).Covers children) (hi : children[i]? = none) :
    (Turns.queued queue).Covers children := by
  intro j d hj hd
  rcases List.mem_cons.mp (hc j d hj hd) with rfl | hmem
  · rw [hi] at hj
    cases hj
  · exact hmem

theorem ensures_stepQueued (refl : ∀ t, R t t) (trans : ∀ a b c, R a b → R b c → R a c)
    (h : ∀ t, (step t).Ensures log (R t)) :
    ∀ (fuel : Nat) (waited : Bool) (queue : List Nat) (children : List (Child ω σ)),
      (stepQueued step fuel waited queue children).Ensures log (fun r =>
        List.Forall₂ (Child.Rel R) children r.2 ∧
          ((Turns.queued queue).Covers children → (Turns.queued r.1).Covers r.2))
  | 0, _, _, children => Action.ensures_pure ⟨Child.forall₂_refl refl children, id⟩
  | _ + 1, _, [], children => Action.ensures_pure ⟨Child.forall₂_refl refl children, id⟩
  | fuel + 1, waited, i :: queue, children => by
      rw [stepQueued]
      match hi : children[i]? with
      | none =>
          intro state hlog
          obtain ⟨hr, hc⟩ := ensures_stepQueued refl trans h fuel waited queue children state hlog
          exact ⟨hr, fun hcov => hc (covers_queued_tail hcov hi)⟩
      | some c =>
          refine (Child.ensures_step h c).bind ?_
          intro c' hcc
          have hset := Child.forall₂_set refl hcc hi
          -- The rest of the queue has its turns with the new child in place.
          have later : ∀ (waited : Bool) (queue' : List Nat), (∀ j ∈ queue, j ∈ queue') →
              (c'.isFinished = false → i ∈ queue') →
              (stepQueued step fuel waited queue' (children.set i c')).Ensures log (fun r =>
                List.Forall₂ (Child.Rel R) children r.2 ∧
                  ((Turns.queued (i :: queue)).Covers children →
                    (Turns.queued r.1).Covers r.2)) := by
            intro waited queue' hq hiq state hlog
            obtain ⟨hr, hc⟩ :=
              ensures_stepQueued refl trans h fuel waited queue' (children.set i c') state hlog
            exact ⟨Child.forall₂_trans trans hset hr, fun hcov => hc (covers_queued_set hcov hq hiq)⟩
          cases hf : c'.isFinished with
          | true => exact later false queue (fun _ hj => hj) (by simp [hf])
          | false =>
              cases hw : waited || queue.isEmpty with
              | true =>
                  simp only [if_true]
                  exact Action.ensures_pure ⟨hset, fun hcov => covers_queued_set hcov
                    (fun _ hj => List.mem_append_left _ hj) (fun _ => by simp)⟩
              | false =>
                  exact later true (queue ++ [i]) (fun _ hj => List.mem_append_left _ hj)
                    (fun _ => by simp)

/-- Every child has some steps, or none, and goes on being covered. -/
theorem ensures_step (refl : ∀ t, R t t) (trans : ∀ a b c, R a b → R b c → R a c)
    (h : ∀ t, (step t).Ensures log (R t)) (turns : Turns) (children : List (Child ω σ)) :
    (turns.step step children).Ensures log (fun r =>
      List.Forall₂ (Child.Rel R) children r.2 ∧ (turns.Covers children → r.1.Covers r.2)) := by
  match turns with
  | .together =>
      refine (Action.ensures_forEach (Child.ensures_step h) children).bind ?_
      intro children' hc
      exact Action.ensures_pure ⟨hc, id⟩
  | .queued queue =>
      refine (ensures_stepQueued refl trans h (2 * queue.length) false queue children).bind ?_
      intro r hr
      exact Action.ensures_pure hr

end Turns

/-! ## Rounds -/

/-- A relation between tasks, for each number of levels, that holds of every single thing that can
happen to a task in a round. -/
structure Scope.RoundRel (scope : Scope ω σ) (log : List (Event ω))
    (R : Nat → Task ω σ → Task ω σ → Prop) : Prop where
  refl : ∀ {levels} (t : Task ω σ), R levels t t
  trans : ∀ {levels} (a b c : Task ω σ), R levels a b → R levels b c → R levels a c
  begun : ∀ {levels} {job : Job ω σ} {t : Task ω σ}, scope.Begins log job t →
    R (levels + 1) (.unstarted job) t
  waited : ∀ {levels rounds} {call : Call ω σ},
    R (levels + 1) (.waiting (rounds + 1) call) (.waiting rounds call)
  resumed : ∀ {levels} {call : Call ω σ} {t : Task ω σ}, scope.Resumes log call t →
    R (levels + 1) (.waiting 0 call) t
  branched : ∀ {levels} {shape : Shape ω σ} {turns turns' : Turns}
      {children children' : List (Child ω σ)},
    List.Forall₂ (Child.Rel (R levels)) children children' →
    (turns.Covers children → turns'.Covers children') →
    R (levels + 1) (.branch shape turns children) (.branch shape turns' children')

namespace Scope

variable {scope : Scope ω σ} {log : List (Event ω)} {R : Nat → Task ω σ → Task ω σ → Prop}

theorem RoundRel.ensures_stepChildren (hR : scope.RoundRel log R) {levels : Nat}
    {step : Task ω σ → Action ω σ (Task ω σ)} (h : ∀ t, (step t).Ensures log (R levels t)) :
    ∀ t, (stepChildren step t).Ensures log (R (levels + 1) t)
  | .value _ => Action.ensures_pure (hR.refl _)
  | .failed _ => Action.ensures_pure (hR.refl _)
  | .unstarted _ => Action.ensures_pure (hR.refl _)
  | .waiting _ _ => Action.ensures_pure (hR.refl _)
  | .branch _ turns children =>
      (Turns.ensures_step hR.refl hR.trans h turns children).bind fun _ hc =>
        Action.ensures_pure (hR.branched hc.1 hc.2)

/-- What survives each single thing that can happen to a task survives a round. -/
theorem RoundRel.round (hR : scope.RoundRel log R) :
    ∀ (levels : Nat) (t : Task ω σ), (scope.round levels t).Ensures log (R levels t)
  | 0, t => Action.ensures_pure (hR.refl t)
  | levels + 1, t => by
      have below := hR.ensures_stepChildren (hR.round levels)
      match t with
      | .value _ => exact Action.ensures_pure (hR.refl _)
      | .failed _ => exact Action.ensures_pure (hR.refl _)
      | .unstarted job =>
          refine (scope.ensures_begin job).bind ?_
          intro t' ht state hlog
          exact hR.trans _ _ _ (hR.begun ht) (below t' state hlog)
      | .waiting 0 call =>
          refine (scope.ensures_resume call).bind ?_
          intro t' ht state hlog
          exact hR.trans _ _ _ (hR.resumed ht) (below t' state hlog)
      | .waiting (_ + 1) _ => exact Action.ensures_pure hR.waited
      | .branch shape turns children => exact below (.branch shape turns children)

end Scope

end GraphQLEngine
