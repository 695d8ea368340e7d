/-
Runs in step, for documents that say the same in other words.

Execution knows of a group its key, the name and the arguments of its first
field, what its selections come to, and for errors the locations of its
fields.  `Scope.Simulates` is about a relation between the groups of two scopes
that respects all this, and that holds again between the groups below.  The
work of two such scopes then goes on in step: the trees of tasks have the same
shape at all times, and the same resolvers are called in the same order
(`Simulates.round`).  The runs end with the same data and with errors that are
related as the groups demand (`Prepared.runOn_alike`), and so do the runs of
requests that are prepared alike (`PreparesAlike.execute`).

How errors are related is a parameter, `E`.  It may be equality, or let errors
differ in how locations are listed, where fields are repeated.
-/
import GraphQLEngine.Proofs.Account

namespace GraphQLEngine

variable {ω σ α β α' β' : Type}

/-! ## Results that are alike -/

/-- Errors that differ at most in the order and the repetition of their locations. -/
structure ResponseError.Alike (e e' : ResponseError) : Prop where
  message : e'.message = e.message
  path : e'.path = e.path
  extensions : e'.extensions = e.extensions
  locations : ∀ l, l ∈ e'.locations ↔ l ∈ e.locations

section Errors

variable {E : ResponseError → ResponseError → Prop}

/-- Outcomes with the same value, and with errors that are related. -/
structure Outcome.Alike (E : ResponseError → ResponseError → Prop) (o o' : Outcome) : Prop where
  value : o'.value = o.value
  errors : List.Forall₂ E o.errors o'.errors

/-- Outcomes at the same place of a node. -/
structure Outcome.AlikeAt (E : ResponseError → ResponseError → Prop) (o o' : PathSegment × Outcome) :
    Prop where
  segment : o'.1 = o.1
  outcome : o.2.Alike E o'.2

theorem Outcome.Alike.settle {o o' : Outcome} (h : o.Alike E o') (type : TypeRef) :
    (o.settle type).Alike E (o'.settle type) := by
  rw [Outcome.settle, Outcome.settle, h.value]
  split
  · exact h
  · split
    · exact h
    · exact ⟨rfl, h.errors⟩

theorem allValues_alike {os os' : List (PathSegment × Outcome)}
    (h : List.Forall₂ (Outcome.AlikeAt E) os os') : allValues os' = allValues os := by
  induction h with
  | nil => rfl
  | cons ho _ ih => rw [allValues, allValues, ih, ho.outcome.value, ho.segment]

theorem Shape.join_alike (shape : Shape ω σ) {os os' : List (PathSegment × Outcome)}
    (h : List.Forall₂ (Outcome.AlikeAt E) os os') : (shape.join os).Alike E (shape.join os') where
  value := congrArg (Option.map shape.assemble) (allValues_alike h)
  errors := List.rel_flatMap h fun _ _ ho => ho.outcome.errors

end Errors

/-! ## Tasks that are alike -/

/-- Jobs for corresponding groups. -/
inductive Job.Alike (R : FieldGroup → FieldGroup → Prop) : Job ω σ → Job ω σ → Prop
  | field {site : Site ω σ} {group group' : FieldGroup} {definition : FieldDefinition ω σ} :
      R group group' → Job.Alike R (.field site group definition) (.field site group' definition)
  | item {group group' : FieldGroup} {type : TypeRef} {path : Path}
      {resolved : Except ResolverFailure (Resolved ω)} :
      R group group' → Job.Alike R (.item group type path resolved) (.item group' type path resolved)

/-- Calls for corresponding groups. -/
inductive Call.Alike (R : FieldGroup → FieldGroup → Prop) : Call ω σ → Call ω σ → Prop
  | mk {info : ResolveInfo ω} {resolver : Resolver ω σ} {type : TypeRef} {group group' : FieldGroup} :
      R group group' → Call.Alike R ⟨info, resolver, type, group⟩ ⟨info, resolver, type, group'⟩

mutual

/-- Tasks of the same shape for corresponding groups, with errors that are related. -/
inductive Task.Alike (E : ResponseError → ResponseError → Prop) (R : FieldGroup → FieldGroup → Prop) :
    Task ω σ → Task ω σ → Prop
  | value {json : Json} : Task.Alike E R (.value json) (.value json)
  | failed {e e' : ResponseError} : E e e' → Task.Alike E R (.failed e) (.failed e')
  | unstarted {job job' : Job ω σ} :
      job.Alike R job' → Task.Alike E R (.unstarted job) (.unstarted job')
  | waiting {rounds : Nat} {call call' : Call ω σ} :
      call.Alike R call' → Task.Alike E R (.waiting rounds call) (.waiting rounds call')
  | branch {shape : Shape ω σ} {turns : Turns} {children children' : List (Child ω σ)} :
      Child.AllAlike E R children children' →
      Task.Alike E R (.branch shape turns children) (.branch shape turns children')

inductive Child.AllAlike (E : ResponseError → ResponseError → Prop)
    (R : FieldGroup → FieldGroup → Prop) : List (Child ω σ) → List (Child ω σ) → Prop
  | nil : Child.AllAlike E R [] []
  | mk {position : Position} {task task' : Task ω σ} {rest rest' : List (Child ω σ)} :
      Task.Alike E R task task' → Child.AllAlike E R rest rest' →
      Child.AllAlike E R (.mk position task :: rest) (.mk position task' :: rest')
  | absent {key : Name} {rest rest' : List (Child ω σ)} :
      Child.AllAlike E R rest rest' →
      Child.AllAlike E R (.absent key :: rest) (.absent key :: rest')

end

section Outcomes

variable {E : ResponseError → ResponseError → Prop} {R : FieldGroup → FieldGroup → Prop}

theorem Child.allAlike_iff_forall₂ {children children' : List (Child ω σ)} :
    Child.AllAlike E R children children' ↔
      List.Forall₂ (Child.Rel (Task.Alike E R)) children children' := by
  constructor
  · intro h
    induction children generalizing children' with
    | nil => cases h with | nil => exact .nil
    | cons _ _ ih =>
        cases h with
        | mk ht hrest => exact .cons (.mk ht) (ih hrest)
        | absent hrest => exact .cons .absent (ih hrest)
  · intro h
    induction h with
    | nil => exact .nil
    | cons hc _ ih =>
        cases hc with
        | mk ht => exact .mk ht ih
        | absent => exact .absent ih

mutual

theorem Task.Alike.outcome? {t t' : Task ω σ} :
    t.Alike E R t' → Option.Rel (Outcome.Alike E) t.outcome? t'.outcome?
  | .value => .some ⟨rfl, .nil⟩
  | .failed he => .some ⟨rfl, .cons he .nil⟩
  | .unstarted _ => .none
  | .waiting _ => .none
  | @Task.Alike.branch _ _ _ _ shape _ children children' hchildren => by
      rw [Task.outcome?, Task.outcome?]
      match Child.outcomes? children, Child.outcomes? children', hchildren.outcomes? with
      | none, none, .none => exact .none
      | some _, some _, .some hos => exact .some (shape.join_alike hos)

theorem Child.AllAlike.outcomes? {children children' : List (Child ω σ)} :
    Child.AllAlike E R children children' →
      Option.Rel (List.Forall₂ (Outcome.AlikeAt E)) (Child.outcomes? children) (Child.outcomes? children')
  | .nil => .some .nil
  | .absent hrest => hrest.outcomes?
  | @Child.AllAlike.mk _ _ _ _ _ task task' rest rest' ht hrest => by
      rw [Child.outcomes?, Child.outcomes?]
      match task.outcome?, task'.outcome?, ht.outcome?, Child.outcomes? rest, Child.outcomes? rest',
        hrest.outcomes? with
      | none, none, .none, _, _, _ => exact .none
      | some _, some _, .some _, none, none, .none => exact .none
      | some _, some _, .some ho, some _, some _, .some hos =>
          exact .some (.cons ⟨rfl, ho.settle _⟩ hos)

end

theorem Child.Rel.isFinished_alike {c c' : Child ω σ} (h : Child.Rel (Task.Alike E R) c c') :
    c'.isFinished = c.isFinished := by
  cases h with
  | absent => rfl
  | @mk _ task task' ht =>
      have houtcome := ht.outcome?
      rw [Child.isFinished, Child.isFinished]
      generalize task.outcome? = o, task'.outcome? = o' at houtcome ⊢
      cases houtcome with
      | none => rfl
      | some _ => rfl

theorem Child.Rel.passesNull_alike {c c' : Child ω σ} (h : Child.Rel (Task.Alike E R) c c') :
    c'.passesNull = c.passesNull := by
  cases h with
  | absent => rfl
  | @mk _ task task' ht =>
      have houtcome := ht.outcome?
      rw [Child.passesNull, Child.passesNull]
      generalize task.outcome? = o, task'.outcome? = o' at houtcome ⊢
      cases houtcome with
      | none => rfl
      | some ho => exact congrArg Option.isNone (ho.settle _).value

end Outcomes

/-! ## Actions in step -/

namespace Action

/-- Actions with results that are related, and the same effects whatever the state is. -/
def Alike (R : α → β → Prop) (action : Action ω σ α) (action' : Action ω σ β) : Prop :=
  ∀ state, R (action.run state).1 (action'.run state).1 ∧
    (action'.run state).2 = (action.run state).2

variable {R : α → β → Prop}

theorem alike_pure {a : α} {b : β} (h : R a b) :
    Alike R (pure a : Action ω σ α) (pure b : Action ω σ β) :=
  fun _ => ⟨h, rfl⟩

theorem Alike.bind {S : α' → β' → Prop} {action : Action ω σ α} {action' : Action ω σ β}
    {next : α → Action ω σ α'} {next' : β → Action ω σ β'} (h : Alike R action action')
    (k : ∀ a b, R a b → Alike S (next a) (next' b)) :
    Alike S (action >>= next) (action' >>= next') := by
  intro state
  obtain ⟨hresult, heffects⟩ := h state
  obtain ⟨hresult', heffects'⟩ := k _ _ hresult (action.run state).2.1
  have hrun : (action' >>= next').run state =
      (((next' (action'.run state).1).run (action'.run state).2.1).1,
        ((next' (action'.run state).1).run (action'.run state).2.1).2.1,
        (action'.run state).2.2 ++ ((next' (action'.run state).1).run (action'.run state).2.1).2.2) := rfl
  rw [hrun, heffects, heffects']
  exact ⟨hresult', rfl⟩

theorem alike_refl (action : Action ω σ α) : Alike Eq action action :=
  fun _ => ⟨rfl, rfl⟩

theorem alike_forEach {S : α' → β' → Prop} {f : α → Action ω σ α'} {g : β → Action ω σ β'}
    (hstep : ∀ a b, R a b → Alike S (f a) (g b)) {as : List α} {bs : List β}
    (h : List.Forall₂ R as bs) : Alike (List.Forall₂ S) (forEach f as) (forEach g bs) := by
  induction h with
  | nil => exact alike_pure .nil
  | cons hab _ ih =>
      refine (hstep _ _ hab).bind ?_
      intro a' b' hab'
      refine ih.bind ?_
      intro as' bs' habs
      exact alike_pure (.cons hab' habs)

end Action

/-! ## Scopes that simulate each other -/

/-- A relation between the groups of two scopes under which execution cannot tell them apart, but for
a relation between the errors. -/
structure Scope.Simulates (E : ResponseError → ResponseError → Prop)
    (R : FieldGroup → FieldGroup → Prop) (scope scope' : Scope ω σ) : Prop where
  schema : scope'.schema = scope.schema
  bindings : scope'.bindings = scope.bindings
  width : scope'.width = scope.width
  key {group group' : FieldGroup} : R group group' → group'.key = group.key
  name {group group' : FieldGroup} : R group group' → group'.first.name = group.first.name
  arguments {group group' : FieldGroup} :
    R group group' → group'.first.arguments = group.first.arguments
  error {group group' : FieldGroup} : R group group' → ∀ (fault : FieldFault) (path : Path),
    E (fault.toError path group) (fault.toError path group')
  collect {group group' : FieldGroup} : R group group' → ∀ objectType,
    List.Forall₂ R (scope.collect objectType group.selections)
      (scope'.collect objectType group'.selections)

namespace Scope.Simulates

variable {E : ResponseError → ResponseError → Prop} {R : FieldGroup → FieldGroup → Prop}
  {scope scope' : Scope ω σ} {group group' : FieldGroup}

theorem toTask (h : scope.Simulates E R scope') (hR : R group group') (fault : FieldFault)
    (path : Path) : Task.Alike E R (fault.toTask path group : Task ω σ) (fault.toTask path group') :=
  .failed (h.error hR fault path)

theorem turns_eq (h : scope.Simulates E R scope') (count : Nat) :
    scope'.turns count = scope.turns count := by
  rw [turns, turns, h.width]

/-! ### Branches -/

theorem fieldChild (h : scope.Simulates E R scope') (hR : R group group') (site : Site ω σ) :
    Child.Rel (Task.Alike E R) (Scope.fieldChild site group) (Scope.fieldChild site group') := by
  rw [Scope.fieldChild, Scope.fieldChild, h.key hR, h.name hR]
  split
  · exact .mk .value
  · split
    · exact .absent
    · exact .mk (.unstarted (.field hR))

/-- Selections whose groups correspond make children that are alike. -/
theorem fieldChildren (h : scope.Simulates E R scope') {site : Site ω σ} {ss ss' : List Selection}
    (hcollect : List.Forall₂ R (scope.collect site.objectType.name ss)
      (scope'.collect site.objectType.name ss')) :
    List.Forall₂ (Child.Rel (Task.Alike E R)) (scope.fieldChildren site ss)
      (scope'.fieldChildren site ss') := by
  rw [Scope.fieldChildren, Scope.fieldChildren, List.forall₂_map_left_iff, List.forall₂_map_right_iff]
  exact hcollect.imp fun _ _ hR => h.fieldChild hR site

theorem objectTask (h : scope.Simulates E R scope') {site : Site ω σ} {ss ss' : List Selection}
    (hcollect : List.Forall₂ R (scope.collect site.objectType.name ss)
      (scope'.collect site.objectType.name ss')) :
    Task.Alike E R (scope.objectTask site ss) (scope'.objectTask site ss') := by
  have hchildren := h.fieldChildren hcollect
  rw [Scope.objectTask, Scope.objectTask, ← hchildren.length_eq, h.turns_eq]
  exact .branch (Child.allAlike_iff_forall₂.mpr hchildren)

theorem itemChildren (hR : R group group') (item : TypeRef) (path : Path) :
    ∀ (i : Nat) (items : List (Except ResolverFailure (Resolved ω))),
      Child.AllAlike (σ := σ) E R (Scope.itemChildren group item path i items)
        (Scope.itemChildren group' item path i items)
  | _, [] => .nil
  | i, _ :: rest => .mk (.unstarted (.item hR)) (itemChildren hR item path (i + 1) rest)

theorem listTask (h : scope.Simulates E R scope') (hR : R group group') (item : TypeRef) (path : Path)
    (items : List (Except ResolverFailure (Resolved ω))) :
    Task.Alike E R (scope.listTask group item path items) (scope'.listTask group' item path items) := by
  rw [Scope.listTask, Scope.listTask, h.turns_eq]
  exact .branch (itemChildren hR item path 0 items)

/-! ### Completion -/

theorem leafTask (h : scope.Simulates E R scope') (hR : R group group') (type : TypeRef) (path : Path)
    (value : Json) :
    Task.Alike E R (completedTask path group (GraphQLEngine.leafTask type value) : Task ω σ)
      (completedTask path group' (GraphQLEngine.leafTask type value)) := by
  rw [GraphQLEngine.leafTask]
  split
  · exact h.toTask hR _ _
  · exact .value

theorem leafResult (h : scope.Simulates E R scope') (hR : R group group') (type : TypeRef)
    (path : Path) (result : Except LeafError Json) :
    Task.Alike E R (completedTask path group (GraphQLEngine.leafResult type result) : Task ω σ)
      (completedTask path group' (GraphQLEngine.leafResult type result)) := by
  match result with
  | .ok value => exact h.leafTask hR type path value
  | .error reason => exact h.toTask hR _ _

theorem completeObject (h : scope.Simulates E R scope') (hR : R group group') (name : Name)
    (path : Path) (value : ObjectValue ω) :
    Task.Alike E R (completedTask path group (scope.completeObject group name path value))
      (completedTask path group' (scope'.completeObject group' name path value)) := by
  rw [Scope.completeObject, Scope.completeObject, h.schema]
  cases scope.schema.objectTypeOf name value with
  | ok objectType => exact h.objectTask (h.collect hR _)
  | error fault => exact h.toTask hR _ _

theorem completeLeaf (h : scope.Simulates E R scope') (hR : R group group') (type : TypeRef)
    (name : Name) (path : Path) (value : Json) :
    Task.Alike E R (completedTask path group (scope.completeLeaf group type name path value))
      (completedTask path group' (scope'.completeLeaf group' type name path value)) := by
  unfold Scope.completeLeaf
  rw [h.schema]
  split
  · exact h.leafResult hR _ _ _
  · exact h.leafResult hR _ _ _
  · split
    · exact h.completeObject hR _ _ _
    · exact h.toTask hR _ _
  · exact h.toTask hR _ _

theorem completeNamed (h : scope.Simulates E R scope') (hR : R group group') (type : TypeRef)
    (name : Name) (path : Path) (resolved : Resolved ω) :
    Task.Alike E R (completedTask path group (scope.completeNamed group type name path resolved))
      (completedTask path group' (scope'.completeNamed group' type name path resolved)) := by
  match resolved with
  | .list _ => exact h.toTask hR _ _
  | .object value => exact h.completeObject hR name path value
  | .leaf value =>
      rw [Scope.completeNamed, Scope.completeNamed]
      split
      · exact h.leafTask hR _ _ _
      · exact h.completeLeaf hR _ _ _ _

theorem completeList (h : scope.Simulates E R scope') (hR : R group group') (type item : TypeRef)
    (path : Path) (resolved : Resolved ω) :
    Task.Alike E R (completedTask path group (scope.completeList group type item path resolved))
      (completedTask path group' (scope'.completeList group' type item path resolved)) := by
  match resolved with
  | .list items => exact h.listTask hR item path items
  | .object _ => exact h.toTask hR _ _
  | .leaf value =>
      rw [Scope.completeList.eq_def, Scope.completeList.eq_def]
      split
      · exact h.listTask hR item path _
      · exact h.listTask hR item path _
      · split
        · exact h.leafTask hR _ _ _
        · exact h.toTask hR _ _
      · exact h.toTask hR _ _

theorem completeAnswer (h : scope.Simulates E R scope') (hR : R group group') (type : TypeRef)
    (path : Path) (answer : Except ResolverFailure (Resolved ω)) :
    Task.Alike E R (scope.completeAnswer group type path answer)
      (scope'.completeAnswer group' type path answer) := by
  match answer, type with
  | .error _, _ => exact h.toTask hR _ _
  | .ok resolved, .named name => exact h.completeNamed hR _ name path resolved
  | .ok resolved, .nonNullNamed name => exact h.completeNamed hR _ name path resolved
  | .ok resolved, .list item => exact h.completeList hR _ item path resolved
  | .ok resolved, .nonNullList item => exact h.completeList hR _ item path resolved

/-! ### Resolvers -/

theorem coerceArguments_eq (h : scope.Simulates E R scope') (hR : R group group') :
    ∀ definitions : OrderedMap ArgumentDefinition,
      scope'.coerceArguments group'.first definitions = scope.coerceArguments group.first definitions
  | [] => rfl
  | (name, definition) :: rest => by
      have hvalue : ∀ given, scope'.argumentValue name definition given =
          scope.argumentValue name definition given := by
        intro given
        unfold argumentValue givenValue
        rw [h.schema, h.bindings]
      rw [coerceArguments, coerceArguments, h.arguments hR, hvalue, h.coerceArguments_eq hR rest]

theorem answer (h : scope.Simulates E R scope') (phase : Phase) {call call' : Call ω σ}
    (hcall : call.Alike R call') :
    (scope.answer phase call).Alike (Task.Alike E R) (scope'.answer phase call') := by
  cases hcall with
  | mk hR =>
      refine (Action.alike_refl _).bind ?_
      rintro answer _ rfl
      exact Action.alike_pure (h.completeAnswer hR _ _ answer)

theorem call (h : scope.Simulates E R scope') {call call' : Call ω σ} (hcall : call.Alike R call') :
    (scope.call call).Alike (Task.Alike E R) (scope'.call call') := by
  have hanswer := fun phase => h.answer phase hcall
  cases hcall with
  | @mk _ resolver _ _ _ hR =>
      rw [Scope.call, Scope.call]
      dsimp only
      rcases resolver.suspension with _ | _ | rounds
      · exact hanswer .called
      · refine (Action.alike_refl _).bind ?_
        intro _ _ _
        exact hanswer .ended
      · refine (Action.alike_refl _).bind ?_
        intro _ _ _
        exact Action.alike_pure (.waiting (.mk hR))

theorem beginField (h : scope.Simulates E R scope') (hR : R group group') (site : Site ω σ)
    (definition : FieldDefinition ω σ) :
    (scope.beginField site group definition).Alike (Task.Alike E R)
      (scope'.beginField site group' definition) := by
  have hpath : site.fieldPath group' = site.fieldPath group := by
    rw [Site.fieldPath, Site.fieldPath, h.key hR]
  rw [Scope.beginField, Scope.beginField, h.coerceArguments_eq hR, hpath]
  cases scope.coerceArguments group.first definition.arguments with
  | error fault => exact Action.alike_pure (h.toTask hR fault _)
  | ok arguments =>
      have hinfo : site.info group' arguments = site.info group arguments := by
        rw [Site.info, Site.info, hpath, h.name hR]
      simp only [hinfo]
      rw [Scope.resolve, Scope.resolve]
      split
      · exact Action.alike_pure (h.completeAnswer hR _ _ _)
      · exact h.call (.mk hR)

/-- The beginning of work at a position. -/
theorem begin (h : scope.Simulates E R scope') {job job' : Job ω σ} (hjob : job.Alike R job') :
    (scope.begin job).Alike (Task.Alike E R) (scope'.begin job') := by
  cases hjob with
  | field hR => exact h.beginField hR _ _
  | item hR => exact Action.alike_pure (h.completeAnswer hR _ _ _)

end Scope.Simulates

/-! ## Rounds in step -/

/-- Steps of tasks that are alike are in step. -/
def Task.StepsAlike (E : ResponseError → ResponseError → Prop) (R : FieldGroup → FieldGroup → Prop)
    (step step' : Task ω σ → Action ω σ (Task ω σ)) : Prop :=
  ∀ t t', Task.Alike E R t t' → (step t).Alike (Task.Alike E R) (step' t')

theorem getElem?_of_forall₂ {S : α → β → Prop} {as : List α} {bs : List β} (h : List.Forall₂ S as bs) :
    ∀ i : Nat, Option.Rel S as[i]? bs[i]? := by
  induction h with
  | nil => exact fun _ => .none
  | cons hab _ ih =>
      intro i
      match i with
      | 0 => exact .some hab
      | i + 1 => exact ih i

theorem set_of_forall₂ {S : α → β → Prop} {as : List α} {bs : List β} (h : List.Forall₂ S as bs)
    {a : α} {b : β} (hab : S a b) : ∀ i : Nat, List.Forall₂ S (as.set i a) (bs.set i b) := by
  induction h with
  | nil => exact fun _ => .nil
  | cons hfirst hrest ih =>
      intro i
      match i with
      | 0 => exact .cons hab hrest
      | i + 1 => exact .cons hfirst (ih i)

section Steps

variable {E : ResponseError → ResponseError → Prop} {R : FieldGroup → FieldGroup → Prop}
  {step step' : Task ω σ → Action ω σ (Task ω σ)} {children children' : List (Child ω σ)}

theorem Child.step_alike (hstep : Task.StepsAlike E R step step') {c c' : Child ω σ}
    (h : Child.Rel (Task.Alike E R) c c') :
    (c.step step).Alike (Child.Rel (Task.Alike E R)) (c'.step step') := by
  cases h with
  | absent => exact Action.alike_pure .absent
  | mk ht =>
      refine (hstep _ _ ht).bind ?_
      intro t t' ht
      exact Action.alike_pure (.mk ht)

theorem Child.stepSerial_alike (hstep : Task.StepsAlike E R step step')
    (h : List.Forall₂ (Child.Rel (Task.Alike E R)) children children') :
    (Child.stepSerial step children).Alike (List.Forall₂ (Child.Rel (Task.Alike E R)))
      (Child.stepSerial step' children') := by
  induction h with
  | nil => exact Action.alike_pure .nil
  | cons hc hlater ih =>
      refine (Child.step_alike hstep hc).bind ?_
      intro c c' hc
      rw [hc.isFinished_alike, hc.passesNull_alike]
      split
      · exact Action.alike_pure (.cons hc hlater)
      · split
        · exact Action.alike_pure (.cons hc .nil)
        · refine ih.bind ?_
          intro later later' hlater
          exact Action.alike_pure (.cons hc hlater)

/-- The same children have their turn, with the same ones left in the queue. -/
theorem Turns.stepQueued_alike (hstep : Task.StepsAlike E R step step') :
    ∀ (fuel : Nat) (waited : Bool) (queue : List Nat) {children children' : List (Child ω σ)},
      List.Forall₂ (Child.Rel (Task.Alike E R)) children children' →
      (Turns.stepQueued step fuel waited queue children).Alike
        (fun r r' => r'.1 = r.1 ∧ List.Forall₂ (Child.Rel (Task.Alike E R)) r.2 r'.2)
        (Turns.stepQueued step' fuel waited queue children')
  | 0, _, _, _, _, h => Action.alike_pure ⟨rfl, h⟩
  | _ + 1, _, [], _, _, h => Action.alike_pure ⟨rfl, h⟩
  | fuel + 1, waited, i :: queue, children, children', h => by
      rw [Turns.stepQueued, Turns.stepQueued]
      have hchild := getElem?_of_forall₂ h i
      generalize children[i]? = c, children'[i]? = c' at hchild
      cases hchild with
      | none => exact stepQueued_alike hstep fuel waited queue h
      | some hc =>
          refine (Child.step_alike hstep hc).bind ?_
          intro c c' hc
          have hset := set_of_forall₂ h hc i
          simp only [hc.isFinished_alike]
          split
          · exact stepQueued_alike hstep fuel false queue hset
          · split
            · exact Action.alike_pure ⟨rfl, hset⟩
            · exact stepQueued_alike hstep fuel true (queue ++ [i]) hset

theorem Turns.step_alike (hstep : Task.StepsAlike E R step step')
    (h : List.Forall₂ (Child.Rel (Task.Alike E R)) children children') (turns : Turns) :
    (turns.step step children).Alike
      (fun r r' => r'.1 = r.1 ∧ List.Forall₂ (Child.Rel (Task.Alike E R)) r.2 r'.2)
      (turns.step step' children') := by
  match turns with
  | .together =>
      refine (Action.alike_forEach (fun _ _ hc => Child.step_alike hstep hc) h).bind ?_
      intro children children' h
      exact Action.alike_pure ⟨rfl, h⟩
  | .queued queue =>
      refine (Turns.stepQueued_alike hstep (2 * queue.length) false queue h).bind ?_
      rintro ⟨queue, children⟩ ⟨_, children'⟩ ⟨rfl, h⟩
      exact Action.alike_pure ⟨rfl, h⟩

namespace Scope

theorem stepChildren_alike (hstep : Task.StepsAlike E R step step') :
    Task.StepsAlike E R (stepChildren step) (stepChildren step') := by
  intro t t' ht
  cases ht with
  | value => exact Action.alike_pure .value
  | failed he => exact Action.alike_pure (.failed he)
  | unstarted hjob => exact Action.alike_pure (.unstarted hjob)
  | waiting hcall => exact Action.alike_pure (.waiting hcall)
  | branch hchildren =>
      refine (Turns.step_alike hstep (Child.allAlike_iff_forall₂.mp hchildren) _).bind ?_
      rintro ⟨turns, children⟩ ⟨_, children'⟩ ⟨rfl, h⟩
      exact Action.alike_pure (.branch (Child.allAlike_iff_forall₂.mpr h))

namespace Simulates

variable {scope scope' : Scope ω σ}

theorem stepWith (h : scope.Simulates E R scope') (hstep : Task.StepsAlike E R step step') :
    Task.StepsAlike E R (scope.stepWith step) (scope'.stepWith step') := by
  intro t t' ht
  cases ht with
  | value => exact Action.alike_pure .value
  | failed he => exact Action.alike_pure (.failed he)
  | unstarted hjob => exact (h.begin hjob).bind (stepChildren_alike hstep)
  | @waiting rounds _ _ hcall =>
      match rounds with
      | 0 => exact (h.answer .ended hcall).bind (stepChildren_alike hstep)
      | rounds + 1 => exact Action.alike_pure (.waiting hcall)
  | branch hchildren => exact stepChildren_alike hstep _ _ (.branch hchildren)

/-- A round of work on two trees that are alike. -/
theorem round (h : scope.Simulates E R scope') :
    ∀ levels : Nat, Task.StepsAlike E R (scope.round levels) (scope'.round levels)
  | 0 => fun _ _ ht => Action.alike_pure ht
  | levels + 1 => h.stepWith (h.round levels)

end Simulates

end Scope

end Steps

/-! ## Runs in step -/

/-- Work of the same shape for corresponding groups. -/
inductive Work.Alike (E : ResponseError → ResponseError → Prop) (R : FieldGroup → FieldGroup → Prop) :
    Work ω σ → Work ω σ → Prop
  | query {task task' : Task ω σ} :
      Task.Alike E R task task' → Work.Alike E R (.query task) (.query task')
  | mutation {site : Site ω σ} {fields fields' : List (Child ω σ)} :
      List.Forall₂ (Child.Rel (Task.Alike E R)) fields fields' →
      Work.Alike E R (.mutation site fields) (.mutation site fields')

/-- A relation between endings that holds where nothing but errors differs, and these are related. -/
structure Ending.Lifts (E : ResponseError → ResponseError → Prop) (P : Ending → Ending → Prop) :
    Prop where
  cancelled : P .cancelled .cancelled
  refused (reason : RequestError) : P (.refused reason) (.refused reason)
  responded {response response' : Response} : response'.data = response.data →
    List.Forall₂ E response.errors response'.errors → P (.responded response) (.responded response')

/-- Runs in which the same happens to resolvers, round by round, with endings that are related. -/
structure Run.InStep (P : Ending → Ending → Prop) (run run' : Run ω σ) : Prop where
  ending : P run.ending run'.ending
  state : run'.state = run.state
  rounds : run'.rounds = run.rounds

/-! ### Equal endings -/

theorem Ending.lifts_eq : Ending.Lifts Eq Eq where
  cancelled := rfl
  refused _ := rfl
  responded {response response'} hdata herrors := by
    rw [List.forall₂_eq_eq_eq] at herrors
    obtain ⟨errors, data⟩ := response
    obtain ⟨errors', data'⟩ := response'
    obtain rfl : data' = data := hdata
    obtain rfl : errors = errors' := herrors
    rfl

/-! ### Endings up to locations -/

/-- Responses with the same data, and with errors that differ at most in how locations are listed. -/
structure Response.Alike (response response' : Response) : Prop where
  data : response'.data = response.data
  errors : List.Forall₂ ResponseError.Alike response.errors response'.errors

inductive Ending.Alike : Ending → Ending → Prop
  | refused {reason : RequestError} : Ending.Alike (.refused reason) (.refused reason)
  | responded {response response' : Response} :
      response.Alike response' → Ending.Alike (.responded response) (.responded response')
  | cancelled : Ending.Alike .cancelled .cancelled

/-- Runs in which the same happens to resolvers, round by round, and which end alike. -/
structure Run.Alike (run run' : Run ω σ) : Prop where
  ending : run.ending.Alike run'.ending
  state : run'.state = run.state
  rounds : run'.rounds = run.rounds

theorem Ending.lifts_alike : Ending.Lifts ResponseError.Alike Ending.Alike where
  cancelled := .cancelled
  refused _ := .refused
  responded hdata herrors := .responded ⟨hdata, herrors⟩

section Runs

variable {E : ResponseError → ResponseError → Prop} {R : FieldGroup → FieldGroup → Prop}

theorem Work.Alike.outcome? {work work' : Work ω σ} (h : work.Alike E R work') :
    Option.Rel (Outcome.Alike E) work.outcome? work'.outcome? := by
  cases h with
  | query ht => exact ht.outcome?
  | @mutation site fields fields' hfields =>
      rw [Work.outcome?, Work.outcome?]
      match Child.outcomes? fields, Child.outcomes? fields',
        (Child.allAlike_iff_forall₂.mpr hfields).outcomes? with
      | none, none, .none => exact .none
      | some _, some _, .some hos => exact .some ((Shape.object site).join_alike hos)

theorem Scope.Simulates.workRound {scope scope' : Scope ω σ} (h : scope.Simulates E R scope')
    (levels : Nat) {work work' : Work ω σ} (hwork : work.Alike E R work') :
    (scope.workRound levels work).Alike (Work.Alike E R) (scope'.workRound levels work') := by
  cases hwork with
  | query ht =>
      refine (h.round (levels + 1) _ _ ht).bind ?_
      intro t t' ht
      exact Action.alike_pure (.query ht)
  | mutation hfields =>
      refine (Child.stepSerial_alike (h.round levels) hfields).bind ?_
      intro fields fields' hfields
      exact Action.alike_pure (.mutation hfields)

/-- Selections whose groups correspond make work that is alike. -/
theorem Scope.Simulates.operationWork {scope scope' : Scope ω σ} (h : scope.Simulates E R scope')
    (kind : OperationKind) {site : Site ω σ} {ss ss' : List Selection}
    (hcollect : List.Forall₂ R (scope.collect site.objectType.name ss)
      (scope'.collect site.objectType.name ss')) :
    (scope.operationWork kind site ss).Alike E R (scope'.operationWork kind site ss') := by
  match kind with
  | .query => exact .query (h.objectTask hcollect)
  | .subscription => exact .query (h.objectTask hcollect)
  | .mutation => exact .mutation (h.fieldChildren hcollect)

variable {P : Ending → Ending → Prop}

/-- Work that is alike goes on in the same rounds, and ends alike. -/
theorem Prepared.runOn_alike (hP : Ending.Lifts E P) {prepared prepared' : Prepared ω σ}
    (h : prepared.scope.Simulates E R prepared'.scope) (hlevels : prepared'.levels = prepared.levels) :
    ∀ (limit : Nat) {work work' : Work ω σ} (state : σ), work.Alike E R work' →
      (prepared.runOn limit work state).InStep P (prepared'.runOn limit work' state)
  | 0, _, _, _, _ => ⟨hP.cancelled, rfl, rfl⟩
  | limit + 1, work, work', state, hwork => by
      obtain ⟨hnext, heffects⟩ := h.workRound prepared.levels hwork state
      rw [runOn, runOn, hlevels]
      generalize (prepared.scope.workRound prepared.levels work).run state = r at hnext heffects
      generalize (prepared'.scope.workRound prepared.levels work').run state = r' at hnext heffects
      obtain ⟨next, state, events⟩ := r
      obtain ⟨next', state', events'⟩ := r'
      obtain ⟨rfl, rfl⟩ := Prod.mk.inj heffects
      have houtcome := hnext.outcome?
      dsimp only at houtcome ⊢
      generalize next.outcome? = o, next'.outcome? = o' at houtcome ⊢
      cases houtcome with
      | @some o o' ho =>
          have hdata : o'.toResponse.data = o.toResponse.data :=
            congrArg (Option.bind · Json.asObject?) ho.value
          exact ⟨hP.responded hdata ho.errors, rfl, rfl⟩
      | none =>
          have hlater := runOn_alike hP h hlevels limit state' hnext
          exact ⟨hlater.ending, hlater.state, congrArg (events' :: ·) hlater.rounds⟩

/-- Preparations for work that goes on in step. -/
structure Prepared.Alike (E : ResponseError → ResponseError → Prop)
    (R : FieldGroup → FieldGroup → Prop) (prepared prepared' : Prepared ω σ) : Prop where
  scope : prepared.scope.Simulates E R prepared'.scope
  start : prepared.start.Alike E R prepared'.start
  levels : prepared'.levels = prepared.levels

/-- Requests that are both refused for the same reason, or that make for work that is alike. -/
inductive Schema.PreparesAlike (schema : Schema ω σ) (E : ResponseError → ResponseError → Prop)
    (R : FieldGroup → FieldGroup → Prop) (request request' : Request ω) : Prop
  | refused {reason : RequestError} : schema.prepare request = .error reason →
      schema.prepare request' = .error reason → PreparesAlike schema E R request request'
  | accepted {prepared prepared' : Prepared ω σ} : schema.prepare request = .ok prepared →
      schema.prepare request' = .ok prepared' → prepared.Alike E R prepared' →
      PreparesAlike schema E R request request'

/-- Operations that keep their names are chosen alike. -/
theorem Document.selectOperation_map (document : Document) {f : Operation → Operation}
    (hname : ∀ operation, (f operation).name? = operation.name?) (fragments : OrderedMap Fragment)
    (name? : Option Name) :
    Document.selectOperation ⟨document.operations.map f, fragments⟩ name? =
      (document.selectOperation name?).map f := by
  cases name? with
  | some name =>
      rw [selectOperation, selectOperation, List.find?_map]
      have hcomp : (fun op : Operation => op.name? == some name) ∘ f =
          fun op => op.name? == some name := by
        funext op
        show ((f op).name? == some name) = (op.name? == some name)
        rw [hname]
      rw [hcomp]
      cases document.operations.find? (fun op => op.name? == some name) with
      | none => rfl
      | some _ => rfl
  | none =>
      rw [selectOperation, selectOperation]
      rcases document.operations with _ | ⟨_, _ | _⟩
      · rfl
      · rfl
      · rfl

/-- Requests whose operations are counterparts, with variables that get the same values. -/
theorem Schema.preparesAlike_of_operation {schema : Schema ω σ} {request request' : Request ω}
    {operation operation' : Operation}
    (hselect : request.document.selectOperation request.operationName = .ok operation)
    (hselect' : request'.document.selectOperation request'.operationName = .ok operation')
    (hkind : operation'.kind = operation.kind)
    (hcoerce : schema.coerceVariables operation' request'.variableValues =
      schema.coerceVariables operation request.variableValues)
    (hroot : request'.root = request.root) (hdepth : request'.depth = request.depth)
    (h : ∀ bindings, schema.coerceVariables operation request.variableValues = .ok bindings →
      let scope : Scope ω σ := ⟨schema, request.document.fragments, bindings, request.width⟩
      let scope' : Scope ω σ := ⟨schema, request'.document.fragments, bindings, request'.width⟩
      scope.Simulates E R scope' ∧ ∀ objectType,
        List.Forall₂ R (scope.collect objectType operation.selections)
          (scope'.collect objectType operation'.selections)) :
    schema.PreparesAlike E R request request' := by
  by_cases hsubscription : operation.kind = .subscription
  · have hrefused : schema.Refuses request .subscription := .subscription hselect hsubscription
    have hrefused' : schema.Refuses request' .subscription :=
      .subscription hselect' (hkind.trans hsubscription)
    exact .refused hrefused.prepare_eq hrefused'.prepare_eq
  · have hexecutable : operation'.kind ≠ .subscription := hkind ▸ hsubscription
    match hrootType : schema.root? operation.kind with
    | none =>
        have hrefused : schema.Refuses request (.undefinedRoot operation.kind) :=
          .undefinedRoot hselect hsubscription hrootType
        have hrefused' : schema.Refuses request' (.undefinedRoot operation'.kind) :=
          .undefinedRoot hselect' hexecutable (hkind ▸ hrootType)
        rw [hkind] at hrefused'
        exact .refused hrefused.prepare_eq hrefused'.prepare_eq
    | some root =>
        have hrootType' : schema.root? operation'.kind = some root := hkind ▸ hrootType
        match hbinds : schema.coerceVariables operation request.variableValues with
        | .error reason =>
            have hrefused : schema.Refuses request reason :=
              .coercion hselect hsubscription hrootType hbinds
            have hrefused' : schema.Refuses request' reason :=
              .coercion hselect' hexecutable hrootType' (hcoerce.trans hbinds)
            exact .refused hrefused.prepare_eq hrefused'.prepare_eq
        | .ok bindings =>
            let scope : Scope ω σ := ⟨schema, request.document.fragments, bindings, request.width⟩
            let scope' : Scope ω σ := ⟨schema, request'.document.fragments, bindings, request'.width⟩
            let site : Site ω σ := ⟨root, request.root, []⟩
            obtain ⟨hscope, hcollect⟩ := h bindings hbinds
            have hp : schema.Prepares request operation root
                ⟨scope, scope.operationWork operation.kind site operation.selections,
                  schema.levels request.depth⟩ :=
              ⟨hselect, hsubscription, hrootType, hbinds, rfl, rfl, rfl⟩
            have hp' : schema.Prepares request' operation' root
                ⟨scope', scope'.operationWork operation'.kind site operation'.selections,
                  schema.levels request.depth⟩ :=
              ⟨hselect', hexecutable, hrootType', hcoerce.trans hbinds, rfl, by rw [hroot],
                by rw [hdepth]⟩
            refine .accepted hp.prepare_eq hp'.prepare_eq ⟨hscope, ?_, rfl⟩
            rw [hkind]
            exact hscope.operationWork operation.kind (hcollect root.name)

/-- The runs of such requests go on in step. -/
theorem Schema.PreparesAlike.execute {schema : Schema ω σ} {request request' : Request ω}
    (hP : Ending.Lifts E P) (h : schema.PreparesAlike E R request request')
    (hrounds : request'.rounds = request.rounds) (state : σ) :
    (schema.execute request state).InStep P (schema.execute request' state) := by
  cases h with
  | refused h h' =>
      rw [Schema.execute, Schema.execute, h, h', hrounds]
      cases request.rounds with
      | zero => exact ⟨hP.cancelled, rfl, rfl⟩
      | succ _ => exact ⟨hP.refused _, rfl, rfl⟩
  | accepted h h' halike =>
      rw [Schema.execute, Schema.execute, h, h', hrounds]
      cases request.rounds with
      | zero => exact ⟨hP.cancelled, rfl, rfl⟩
      | succ limit =>
          exact Prepared.runOn_alike hP halike.scope halike.levels (limit + 1) state halike.start

end Runs

end GraphQLEngine
