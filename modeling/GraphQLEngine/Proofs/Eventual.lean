/-
What work comes to in the end, when answers do not depend on the shared state.

`Scope.eventual?` works a task off at once: every resolver answers immediately,
in one fixed state.  For resolvers that pay no regard to the state this is also
what rounds come to, however long the resolvers are suspended and whichever
children have their turns: a round leaves it as it is (`roundRel_advances`).
`Scope.weight` counts how many rounds a task still holds; a round never adds to
it.

That a round takes something away from the weight is left to Proofs/Progress.
-/
import GraphQLEngine.Proofs.BuiltSchema
import GraphQLEngine.Proofs.Completion
import GraphQLEngine.Proofs.Round

namespace GraphQLEngine

variable {ω σ : Type}

/-! ## Answers without regard to the state -/

/-- A resolver whose answers do not depend on the shared state. -/
def Resolver.Pure (resolver : Resolver ω σ) : Prop :=
  ∀ info s s', (resolver.answer info s).1 = (resolver.answer info s').1

def FieldDefinition.Pure (definition : FieldDefinition ω σ) : Prop :=
  ∀ resolver, definition.resolver? = some resolver → resolver.Pure

/-- A schema whose resolvers all pay no regard to the shared state. -/
def Schema.Pure (schema : Schema ω σ) : Prop :=
  ∀ typeName type fieldName definition, schema.object? typeName = some type →
    type.fields.get? fieldName = some definition → definition.Pure

/-- The answer for a field in a state: its resolver's, or the one read from JSON data. -/
def FieldDefinition.answerIn (definition : FieldDefinition ω σ) (state : σ) (info : ResolveInfo ω) :
    Except ResolverFailure (Resolved ω) :=
  match definition.resolver? with
  | none => info.defaultAnswer
  | some resolver => (resolver.answer info state).1

theorem Resolver.Pure.eq_of_answers {log : List (Event ω)} {resolver : Resolver ω σ}
    (h : resolver.Pure) {info : ResolveInfo ω} {answer : Except ResolverFailure (Resolved ω)}
    (ha : resolver.Answers log info answer) (state : σ) :
    answer = (resolver.answer info state).1 := by
  obtain ⟨_, s, rfl⟩ := ha
  exact h info s state

theorem FieldDefinition.Pure.eq_of_answers {log : List (Event ω)}
    {definition : FieldDefinition ω σ} (h : definition.Pure) {info : ResolveInfo ω}
    {answer : Except ResolverFailure (Resolved ω)} (ha : definition.Answers log info answer)
    (state : σ) : answer = definition.answerIn state info := by
  rw [FieldDefinition.Answers] at ha
  rw [answerIn]
  cases hr : definition.resolver? with
  | none =>
      rw [hr] at ha
      exact ha
  | some resolver =>
      rw [hr] at ha
      exact (h resolver hr).eq_of_answers ha state

/-! ## Sound tasks -/

def Job.Pure : Job ω σ → Prop
  | .field _ _ definition => definition.Pure
  | .item _ _ _ _ => True

mutual

/-- A task whose resolvers pay no regard to the state, and in which every unfinished child gets a
turn. -/
def Task.Sound : Task ω σ → Prop
  | .value _ => True
  | .failed _ => True
  | .unstarted job => job.Pure
  | .waiting _ call => call.resolver.Pure
  | .branch _ turns children => turns.Covers children ∧ Child.AllSound children

def Child.AllSound : List (Child ω σ) → Prop
  | [] => True
  | .absent _ :: rest => Child.AllSound rest
  | .mk _ task :: rest => task.Sound ∧ Child.AllSound rest

end

theorem Child.allSound_of_forall : ∀ {children : List (Child ω σ)},
    (∀ position task, .mk position task ∈ children → task.Sound) → Child.AllSound children
  | [], _ => trivial
  | .absent _ :: rest, h =>
      show Child.AllSound rest from
        Child.allSound_of_forall fun position task hmem =>
          h position task (List.mem_cons_of_mem _ hmem)
  | .mk position task :: _, h =>
      ⟨h position task List.mem_cons_self,
        Child.allSound_of_forall fun position task hmem =>
          h position task (List.mem_cons_of_mem _ hmem)⟩

theorem Child.AllSound.of_mem {position : Position} {task : Task ω σ} :
    ∀ {children : List (Child ω σ)}, Child.AllSound children →
      .mk position task ∈ children → task.Sound
  | .absent _ :: rest, h, hmem => by
      rcases List.mem_cons.mp hmem with heq | hmem
      · cases heq
      · exact Child.AllSound.of_mem (show Child.AllSound rest from h) hmem
  | .mk _ _ :: _, h, hmem => by
      rcases List.mem_cons.mp hmem with heq | hmem
      · cases heq
        exact h.1
      · exact h.2.of_mem hmem

/-! ## Working off at once -/

/-- What children come to, given what a task comes to. -/
def Child.outcomesBy (f : Task ω σ → Option Outcome) :
    List (Child ω σ) → Option (List (PathSegment × Outcome))
  | [] => some []
  | .absent _ :: rest => Child.outcomesBy f rest
  | .mk position task :: rest => do
    let o ← f task
    let os ← Child.outcomesBy f rest
    some ((position.segment, o.settle position.type) :: os)

/-- What a task comes to that has begun, given what its children come to. -/
def Task.outcomeBy (f : Task ω σ → Option Outcome) : Task ω σ → Option Outcome
  | .value json => some ⟨some json, []⟩
  | .failed error => some ⟨none, [error]⟩
  | .unstarted _ => none
  | .waiting _ _ => none
  | .branch shape _ children => (Child.outcomesBy f children).map shape.join

namespace Scope

/-- A task once its resolver has answered in a state, if it waits for one. -/
def opened (scope : Scope ω σ) (state : σ) : Task ω σ → Task ω σ
  | .value json => .value json
  | .failed error => .failed error
  | .unstarted (.item group type path answer) => scope.completeAnswer group type path answer
  | .unstarted (.field site group definition) =>
    match scope.coerceArguments group.first definition.arguments with
    | .error fault => fault.toTask (site.fieldPath group) group
    | .ok arguments =>
      scope.completeAnswer group definition.type (site.fieldPath group)
        (definition.answerIn state (site.info group arguments))
  | .waiting _ call =>
    scope.completeAnswer call.group call.type call.info.path (call.resolver.answer call.info state).1
  | .branch shape turns children => .branch shape turns children

/-- What a task comes to if every resolver answers at once, in one state. -/
def eventual? (scope : Scope ω σ) (state : σ) : Nat → Task ω σ → Option Outcome
  | 0, task => task.outcome?
  | levels + 1, task => (scope.opened state task).outcomeBy (scope.eventual? state levels)

end Scope

/-! ## Weights -/

/-- How many rounds the resolver of a job is suspended. -/
def Job.suspension : Job ω σ → Nat
  | .field _ _ definition => (definition.resolver?.bind Resolver.suspension).getD 0
  | .item _ _ _ _ => 0

/-- How many rounds pass before a task has begun and its resolver has answered. -/
def Task.delay : Task ω σ → Nat
  | .value _ => 0
  | .failed _ => 0
  | .unstarted job => job.suspension + 1
  | .waiting rounds _ => rounds + 1
  | .branch _ _ _ => 0

/-- The sum over all children. -/
def Child.weightBy (f : Task ω σ → Nat) : List (Child ω σ) → Nat
  | [] => 0
  | .absent _ :: rest => Child.weightBy f rest
  | .mk _ task :: rest => f task + Child.weightBy f rest

/-- The sum over the children of a task. -/
def Task.weightBy (f : Task ω σ → Nat) : Task ω σ → Nat
  | .value _ => 0
  | .failed _ => 0
  | .unstarted _ => 0
  | .waiting _ _ => 0
  | .branch _ _ children => Child.weightBy f children

/-- The sum of all delays, down to the given number of levels. -/
def Scope.weight (scope : Scope ω σ) (state : σ) : Nat → Task ω σ → Nat
  | 0, _ => 0
  | levels + 1, task =>
    task.delay + (scope.opened state task).weightBy (scope.weight state levels)

/-! ## Finished tasks -/

theorem Child.outcomesBy_of_outcomes? {f : Task ω σ → Option Outcome}
    (h : ∀ t o, t.outcome? = some o → f t = some o) {children : List (Child ω σ)}
    {os : List (PathSegment × Outcome)} (ho : Child.outcomes? children = some os) :
    Child.outcomesBy f children = some os := by
  induction children generalizing os with
  | nil => exact ho
  | cons c rest ih =>
      cases c with
      | absent _ => exact ih (show Child.outcomes? rest = some os from ho)
      | mk _ task =>
          obtain ⟨o, os', ht, hr, rfl⟩ := Child.outcomes?_mk_cons.mp ho
          simp [Child.outcomesBy, h task o ht, ih hr]

/-- A finished task comes to its outcome. -/
theorem Scope.eventual?_of_outcome? (scope : Scope ω σ) (state : σ) :
    ∀ (levels : Nat) (t : Task ω σ) (o : Outcome), t.outcome? = some o →
      scope.eventual? state levels t = some o
  | 0, _, _, h => h
  | levels + 1, t, o, h => by
      match t with
      | .value _ => exact h
      | .failed _ => exact h
      | .unstarted _ => simp [Task.outcome?] at h
      | .waiting _ _ => simp [Task.outcome?] at h
      | .branch shape _ children =>
          simp only [Task.outcome?, Option.map_eq_some_iff] at h
          obtain ⟨os, hos, rfl⟩ := h
          simp [eventual?, opened, Task.outcomeBy,
            Child.outcomesBy_of_outcomes? (scope.eventual?_of_outcome? state levels) hos]

/-! ## Completed tasks -/

/-- A task whose resolver, if any, has answered, and whose children are sound. -/
structure Scope.IsCompleted (scope : Scope ω σ) (t : Task ω σ) : Prop where
  sound : t.Sound
  opened : ∀ state, scope.opened state t = t
  delay : t.delay = 0

namespace Scope

variable {scope : Scope ω σ}

theorem IsCompleted.value (json : Json) : scope.IsCompleted (.value json) :=
  ⟨trivial, fun _ => rfl, rfl⟩

theorem IsCompleted.failed (error : ResponseError) : scope.IsCompleted (.failed error) :=
  ⟨trivial, fun _ => rfl, rfl⟩

theorem covers_turns (scope : Scope ω σ) (children : List (Child ω σ)) :
    (scope.turns children.length).Covers children := by
  have queued : (Turns.queued (List.range children.length)).Covers children := by
    intro i child hi _
    exact List.mem_range.mpr (List.getElem?_eq_some_iff.mp hi).1
  rw [turns]
  split
  · trivial
  · split
    · trivial
    · exact queued

theorem isCompleted_objectTask (hpure : scope.schema.Pure) (site : Site ω σ)
    (hsite : ∃ name, scope.schema.object? name = some site.objectType) (selections : List Selection) :
    scope.IsCompleted (scope.objectTask site selections) := by
  obtain ⟨name, hname⟩ := hsite
  refine ⟨⟨scope.covers_turns _, Child.allSound_of_forall ?_⟩, fun _ => rfl, rfl⟩
  intro position task hmem
  obtain ⟨group, _, hchild⟩ := List.mem_map.mp hmem
  rw [fieldChild] at hchild
  split at hchild
  · cases hchild
    trivial
  · split at hchild
    · cases hchild
    · cases hchild
      exact hpure name site.objectType group.first.name _ hname ‹_›

theorem isCompleted_listTask (group : FieldGroup) (item : TypeRef) (path : Path)
    (items : List (Except ResolverFailure (Resolved ω))) :
    scope.IsCompleted (scope.listTask group item path items) := by
  have hcovers := scope.covers_turns (itemChildren group item path 0 items)
  rw [length_itemChildren] at hcovers
  refine ⟨⟨hcovers, Child.allSound_of_forall ?_⟩, fun _ => rfl, rfl⟩
  intro position task hmem
  obtain ⟨n, answer, hchild⟩ := exists_of_mem_itemChildren hmem
  cases hchild
  trivial

/-- Completion leaves completed tasks. -/
theorem isCompleted_completeAnswer (hpure : scope.schema.Pure) (group : FieldGroup) (type : TypeRef)
    (path : Path) (answer : Except ResolverFailure (Resolved ω)) :
    scope.IsCompleted (scope.completeAnswer group type path answer) := by
  have hc := scope.completes_completeAnswer group type path answer
  generalize scope.completeAnswer group type path answer = task at hc
  cases hc with
  | failed fault => exact .failed _
  | null _ => exact .value _
  | scalar _ _ _ _ => exact .value _
  | enum _ _ _ => exact .value _
  | object _ _ htype =>
      exact isCompleted_objectTask hpure _ (Schema.exists_object?_of_objectTypeOf htype) _
  | list _ _ => exact isCompleted_listTask _ _ _ _

theorem isCompleted_opened (hpure : scope.schema.Pure) (state : σ) (job : Job ω σ) :
    scope.IsCompleted (scope.opened state (.unstarted job)) := by
  match job with
  | .item group type path answer => exact isCompleted_completeAnswer hpure group type path answer
  | .field site group definition =>
      simp only [opened]
      match scope.coerceArguments group.first definition.arguments with
      | .error fault => exact .failed _
      | .ok arguments => exact isCompleted_completeAnswer hpure _ _ _ _

theorem IsCompleted.eventual? {t : Task ω σ} (h : scope.IsCompleted t) (state : σ) (levels : Nat) :
    scope.eventual? state (levels + 1) t = t.outcomeBy (scope.eventual? state levels) := by
  rw [Scope.eventual?, h.opened]

theorem IsCompleted.weight {t : Task ω σ} (h : scope.IsCompleted t) (state : σ) (levels : Nat) :
    scope.weight state (levels + 1) t = t.weightBy (scope.weight state levels) := by
  rw [Scope.weight, h.opened, h.delay, Nat.zero_add]

end Scope

/-! ## Advances -/

/-- What a round makes of a sound task: it comes to the same in the end, and holds no more rounds. -/
structure Scope.Advances (scope : Scope ω σ) (state : σ) (levels : Nat) (t t' : Task ω σ) : Prop where
  sound : t'.Sound
  eventual : scope.eventual? state levels t' = scope.eventual? state levels t
  weight : scope.weight state levels t' ≤ scope.weight state levels t
  finished : ∀ o, t.outcome? = some o → t'.outcome? = some o

theorem Scope.Advances.refl {scope : Scope ω σ} {state : σ} {levels : Nat} {t : Task ω σ}
    (hs : t.Sound) : scope.Advances state levels t t :=
  ⟨hs, rfl, Nat.le_refl _, fun _ h => h⟩

theorem Scope.Advances.trans {scope : Scope ω σ} {state : σ} {levels : Nat} {a b c : Task ω σ}
    (hab : scope.Advances state levels a b) (hbc : scope.Advances state levels b c) :
    scope.Advances state levels a c :=
  ⟨hbc.sound, hbc.eventual.trans hab.eventual, Nat.le_trans hbc.weight hab.weight,
    fun o ho => hbc.finished o (hab.finished o ho)⟩

/-- What a round makes of sound children. -/
structure Scope.AdvancesAll (scope : Scope ω σ) (state : σ) (levels : Nat)
    (children children' : List (Child ω σ)) : Prop where
  sound : Child.AllSound children'
  eventual : Child.outcomesBy (scope.eventual? state levels) children' =
    Child.outcomesBy (scope.eventual? state levels) children
  weight : Child.weightBy (scope.weight state levels) children' ≤
    Child.weightBy (scope.weight state levels) children
  finished : ∀ os, Child.outcomes? children = some os → Child.outcomes? children' = some os

namespace Scope

variable {scope : Scope ω σ} {state : σ} {log : List (Event ω)}

theorem AdvancesAll.of_forall₂ {levels : Nat} : ∀ {children children' : List (Child ω σ)},
    List.Forall₂ (Child.Rel (fun t t' => t.Sound → scope.Advances state levels t t'))
      children children' → Child.AllSound children →
      scope.AdvancesAll state levels children children'
  | [], _, .nil, _ => ⟨trivial, rfl, Nat.le_refl _, fun _ h => h⟩
  | .absent _ :: rest, _, .cons .absent hrest, hs => by
      have ih := AdvancesAll.of_forall₂ hrest (show Child.AllSound rest from hs)
      exact ⟨ih.sound, ih.eventual, ih.weight, ih.finished⟩
  | .mk position t :: rest, .mk _ t' :: _, .cons (.mk hc) hrest, hs => by
      have ih := AdvancesAll.of_forall₂ hrest hs.2
      have head := hc hs.1
      refine ⟨⟨head.sound, ih.sound⟩, ?_, Nat.add_le_add head.weight ih.weight, ?_⟩
      · rw [Child.outcomesBy, Child.outcomesBy, head.eventual, ih.eventual]
      · intro os hos
        obtain ⟨o, os', ht, hr, rfl⟩ := Child.outcomes?_mk_cons.mp hos
        exact Child.outcomes?_mk_cons.mpr ⟨o, os', head.finished o ht, ih.finished os' hr, rfl⟩

/-- Beginning a job takes a round off its weight. -/
theorem begins_advances (hpure : scope.schema.Pure) {levels : Nat} {job : Job ω σ} {t : Task ω σ}
    (hb : scope.Begins log job t) (hs : job.Pure) :
    scope.Advances state (levels + 1) (.unstarted job) t ∧
      scope.weight state (levels + 1) t < scope.weight state (levels + 1) (.unstarted job) := by
  have unfinished : ∀ o, (Task.unstarted job).outcome? = some o → t.outcome? = some o :=
    fun o ho => by simp [Task.outcome?] at ho
  -- A job that is answered, or needs no answer, becomes what it is opened to.
  have opens : scope.opened state (.unstarted job) = t →
      scope.Advances state (levels + 1) (.unstarted job) t ∧
        scope.weight state (levels + 1) t < scope.weight state (levels + 1) (.unstarted job) := by
    rintro rfl
    have hc := isCompleted_opened hpure state job
    have hlt : scope.weight state (levels + 1) (scope.opened state (.unstarted job)) <
        scope.weight state (levels + 1) (.unstarted job) := by
      rw [hc.weight, Scope.weight, Task.delay]
      omega
    exact ⟨⟨hc.sound, by rw [hc.eventual?, Scope.eventual?], Nat.le_of_lt hlt, unfinished⟩, hlt⟩
  cases hb with
  | item => exact opens rfl
  | refused hargs => exact opens (by simp only [opened, hargs])
  | answered hargs hans =>
      refine opens ?_
      simp only [opened, hargs]
      rw [FieldDefinition.Pure.eq_of_answers hs hans state]
  | @waiting site group definition arguments resolver rounds hargs hres hsus =>
      have hopened : scope.opened state (.unstarted (.field site group definition)) =
          scope.opened state
            (.waiting rounds ⟨site.info group arguments, resolver, definition.type, group⟩) := by
        simp only [opened, hargs, FieldDefinition.answerIn, hres]
        rfl
      have hlt : scope.weight state (levels + 1)
            (.waiting rounds ⟨site.info group arguments, resolver, definition.type, group⟩) <
          scope.weight state (levels + 1) (.unstarted (.field site group definition)) := by
        rw [Scope.weight, Scope.weight, hopened, Task.delay, Task.delay, Job.suspension, hres]
        simp [hsus]
      exact ⟨⟨hs resolver hres, by rw [Scope.eventual?, Scope.eventual?, hopened],
        Nat.le_of_lt hlt, unfinished⟩, hlt⟩

/-- An answer takes the last round off the weight of a call. -/
theorem resumes_advances (hpure : scope.schema.Pure) {levels : Nat} {call : Call ω σ} {t : Task ω σ}
    (hr : scope.Resumes log call t) (hs : call.resolver.Pure) :
    scope.Advances state (levels + 1) (.waiting 0 call) t ∧
      scope.weight state (levels + 1) t < scope.weight state (levels + 1) (.waiting 0 call) := by
  obtain ⟨answer, hans, rfl⟩ := hr
  have hc := isCompleted_completeAnswer hpure call.group call.type call.info.path answer
  have hopened : scope.opened state (.waiting 0 call) =
      scope.completeAnswer call.group call.type call.info.path answer := by
    rw [opened, hs.eq_of_answers hans state]
  have hlt : scope.weight state (levels + 1)
        (scope.completeAnswer call.group call.type call.info.path answer) <
      scope.weight state (levels + 1) (.waiting 0 call) := by
    rw [hc.weight, Scope.weight, hopened, Task.delay]
    omega
  exact ⟨⟨hc.sound, by rw [hc.eventual?, Scope.eventual?, hopened], Nat.le_of_lt hlt,
    fun o ho => by simp [Task.outcome?] at ho⟩, hlt⟩

theorem waited_advances {levels rounds : Nat} {call : Call ω σ} (hs : call.resolver.Pure) :
    scope.Advances state (levels + 1) (.waiting (rounds + 1) call) (.waiting rounds call) ∧
      scope.weight state (levels + 1) (.waiting rounds call) <
        scope.weight state (levels + 1) (.waiting (rounds + 1) call) := by
  have hlt : scope.weight state (levels + 1) (.waiting rounds call) <
      scope.weight state (levels + 1) (.waiting (rounds + 1) call) := by
    simp only [Scope.weight, Task.delay, opened]
    omega
  exact ⟨⟨hs, by rw [Scope.eventual?, Scope.eventual?, opened, opened], Nat.le_of_lt hlt,
    fun o ho => by simp [Task.outcome?] at ho⟩, hlt⟩

/-- Every round advances sound tasks. -/
theorem roundRel_advances (hpure : scope.schema.Pure) (state : σ) (log : List (Event ω)) :
    scope.RoundRel log (fun levels t t' => t.Sound → scope.Advances state levels t t') where
  refl _ := .refl
  trans _ _ _ hab hbc hs := (hab hs).trans (hbc (hab hs).sound)
  begun hb hs := (begins_advances hpure hb hs).1
  waited hs := (waited_advances hs).1
  resumed hr hs := (resumes_advances hpure hr hs).1
  branched hchildren hcovers hs := by
    have all := AdvancesAll.of_forall₂ hchildren hs.2
    refine ⟨⟨hcovers hs.1, all.sound⟩, ?_, ?_, ?_⟩
    · rw [Scope.eventual?, Scope.eventual?, opened, opened, Task.outcomeBy, Task.outcomeBy,
        all.eventual]
    · exact Nat.add_le_add_left all.weight 0
    · intro o ho
      simp only [Task.outcome?, Option.map_eq_some_iff] at ho ⊢
      obtain ⟨os, hos, rfl⟩ := ho
      exact ⟨os, all.finished os hos, rfl⟩

end Scope

end GraphQLEngine
