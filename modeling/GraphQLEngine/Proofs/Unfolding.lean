/-
How work unfolds: what has become of a task after some rounds, and by which
course of resolver calls.

`Scope.Unfolds` relates a task as completion left it to what it is now.  A
round takes a task one step further, and its events are just what it adds to
the timeline of the course (`keepsUnfolding_round`).  So the events of a run,
with their rounds, are the timelines of the courses of its work
(`Prepared.runOn_unfolds`), whatever children have their turns.

Where nothing limits how many children are at work together, the relation also
keeps account of rounds.  What follows from that is left to
Proofs/CriticalPath.
-/
import GraphQLEngine.Proofs.Course
import GraphQLEngine.Proofs.Round
import GraphQLEngine.Proofs.SerialMutation
import Mathlib.Data.List.Perm.Basic

namespace GraphQLEngine

variable {ω σ α β : Type}

/-! ## Results of actions with their events -/

namespace Action

/-- Whatever state an action meets, its result and the events that it reports have a property. -/
def Reports (P : α → List (Event ω) → Prop) (action : Action ω σ α) : Prop :=
  ∀ state, P (action.run state).1 (action.run state).2.2

theorem reports_pure {P : α → List (Event ω) → Prop} {a : α} (h : P a []) :
    (pure a : Action ω σ α).Reports P :=
  fun _ => h

theorem Reports.bind {P : α → List (Event ω) → Prop} {Q : β → List (Event ω) → Prop}
    {action : Action ω σ α} {next : α → Action ω σ β} (h : action.Reports P)
    (k : ∀ a es, P a es → (next a).Reports (fun b es' => Q b (es ++ es'))) :
    (action >>= next).Reports Q :=
  fun state => k _ _ (h state) _

/-- What an action does in any case, whatever the log is. -/
theorem Reports.of_ensures {P : α → Prop} {action : Action ω σ α}
    (h : ∀ log, action.Ensures log P) : action.Reports (fun a _ => P a) :=
  fun state => h _ state (List.Subset.refl _)

theorem Reports.and {P Q : α → List (Event ω) → Prop} {action : Action ω σ α}
    (h : action.Reports P) (k : action.Reports Q) : action.Reports (fun a es => P a es ∧ Q a es) :=
  fun state => ⟨h state, k state⟩

theorem Reports.imp {P Q : α → List (Event ω) → Prop} {action : Action ω σ α}
    (h : action.Reports P) (k : ∀ a es, P a es → Q a es) : action.Reports Q :=
  fun state => k _ _ (h state)

end Action

namespace Child

variable {step : Task ω σ → Action ω σ (Task ω σ)}

theorem reports_step_mk {P : Task ω σ → List (Event ω) → Prop} {t : Task ω σ}
    (h : (step t).Reports P) (position : Position) :
    ((Child.mk position t).step step).Reports
      (fun c es => ∃ t', c = .mk position t' ∧ P t' es) := by
  refine h.bind ?_
  intro t' es ht
  exact Action.reports_pure ⟨t', rfl, by rwa [List.append_nil]⟩

theorem reports_step_absent (key : Name) :
    ((Child.absent key).step step).Reports (fun c es => c = .absent key ∧ es = []) :=
  Action.reports_pure ⟨rfl, rfl⟩

end Child

/-- An answer that a resolver gives in some state. -/
def Resolver.Gives (resolver : Resolver ω σ) (info : ResolveInfo ω)
    (answer : Except ResolverFailure (Resolved ω)) : Prop :=
  ∃ state, (resolver.answer info state).1 = answer

theorem Action.reports_report (phase : Phase) (info : ResolveInfo ω) :
    (Action.report phase info : Action ω σ Unit).Reports (fun _ es => es = [⟨phase, info, none⟩]) :=
  fun _ => rfl

theorem Action.reports_ask (phase : Phase) (resolver : Resolver ω σ) (info : ResolveInfo ω) :
    (Action.ask phase resolver info).Reports (fun answer es =>
      es = [⟨phase, info, some answer⟩] ∧ resolver.Gives info answer) :=
  fun state => ⟨rfl, state, rfl⟩

namespace Scope

/-- How the work on a job begins: its task then, and the events. -/
inductive BeginsBy (scope : Scope ω σ) : Job ω σ → Task ω σ → List (Event ω) → Prop
  | item (group : FieldGroup) (type : TypeRef) (path : Path)
      (answer : Except ResolverFailure (Resolved ω)) :
      BeginsBy scope (.item group type path answer) (scope.completeAnswer group type path answer) []
  | refused {site : Site ω σ} {group : FieldGroup} {definition : FieldDefinition ω σ}
      {fault : FieldFault} :
      scope.coerceArguments group.first definition.arguments = .error fault →
      BeginsBy scope (.field site group definition) (fault.toTask (site.fieldPath group) group) []
  | read {site : Site ω σ} {group : FieldGroup} {definition : FieldDefinition ω σ}
      {arguments : JsonObject} :
      scope.coerceArguments group.first definition.arguments = .ok arguments →
      definition.resolver? = none →
      BeginsBy scope (.field site group definition)
        (scope.completeAnswer group definition.type (site.fieldPath group)
          (site.info group arguments).defaultAnswer) []
  | called {site : Site ω σ} {group : FieldGroup} {definition : FieldDefinition ω σ}
      {arguments : JsonObject} {resolver : Resolver ω σ}
      {answer : Except ResolverFailure (Resolved ω)} :
      scope.coerceArguments group.first definition.arguments = .ok arguments →
      definition.resolver? = some resolver → resolver.suspension = none →
      resolver.Gives (site.info group arguments) answer →
      BeginsBy scope (.field site group definition)
        (scope.completeAnswer group definition.type (site.fieldPath group) answer)
        [⟨.called, site.info group arguments, some answer⟩]
  | atOnce {site : Site ω σ} {group : FieldGroup} {definition : FieldDefinition ω σ}
      {arguments : JsonObject} {resolver : Resolver ω σ}
      {answer : Except ResolverFailure (Resolved ω)} :
      scope.coerceArguments group.first definition.arguments = .ok arguments →
      definition.resolver? = some resolver → resolver.suspension = some 0 →
      resolver.Gives (site.info group arguments) answer →
      BeginsBy scope (.field site group definition)
        (scope.completeAnswer group definition.type (site.fieldPath group) answer)
        [⟨.started, site.info group arguments, none⟩, ⟨.ended, site.info group arguments, some answer⟩]
  | suspended {site : Site ω σ} {group : FieldGroup} {definition : FieldDefinition ω σ}
      {arguments : JsonObject} {resolver : Resolver ω σ} {rounds : Nat} :
      scope.coerceArguments group.first definition.arguments = .ok arguments →
      definition.resolver? = some resolver → resolver.suspension = some (rounds + 1) →
      BeginsBy scope (.field site group definition)
        (.waiting rounds ⟨site.info group arguments, resolver, definition.type, group⟩)
        [⟨.started, site.info group arguments, none⟩]

theorem reports_answer (scope : Scope ω σ) (phase : Phase) (call : Call ω σ) :
    (scope.answer phase call).Reports (fun task es => ∃ answer,
      call.resolver.Gives call.info answer ∧ es = [⟨phase, call.info, some answer⟩] ∧
        task = scope.completeAnswer call.group call.type call.info.path answer) := by
  refine (Action.reports_ask phase call.resolver call.info).bind ?_
  rintro answer _ ⟨rfl, hgives⟩
  exact Action.reports_pure ⟨answer, hgives, rfl, rfl⟩

theorem reports_begin (scope : Scope ω σ) :
    ∀ job : Job ω σ, (scope.begin job).Reports (scope.BeginsBy job)
  | .item group type path answer => Action.reports_pure (.item group type path answer)
  | .field site group definition => by
      simp only [begin, beginField]
      cases hargs : scope.coerceArguments group.first definition.arguments with
      | error fault => exact Action.reports_pure (.refused hargs)
      | ok arguments =>
          simp only [resolve]
          cases hres : definition.resolver? with
          | none => exact Action.reports_pure (.read hargs hres)
          | some resolver =>
              simp only [Scope.call]
              rcases hsusp : resolver.suspension with _ | _ | rounds
              · refine (scope.reports_answer .called _).imp ?_
                rintro _ _ ⟨answer, hgives, rfl, rfl⟩
                exact .called hargs hres hsusp hgives
              · refine (Action.reports_report .started _).bind ?_
                rintro _ _ rfl
                refine (scope.reports_answer .ended _).imp ?_
                rintro _ _ ⟨answer, hgives, rfl, rfl⟩
                exact .atOnce hargs hres hsusp hgives
              · exact fun _ => .suspended hargs hres hsusp

end Scope

/-! ## Unfolding -/

mutual

/-- What has become of a task that completion left, and the course that this has taken.  The first
numbers are the last round so far, the levels that are worked on, and the round in which the task was
there.

Without a limit to the width the relation says when things happen: work begins in the round in
which it is there, and goes on as soon as resolvers answer. -/
inductive Scope.Unfolds (scope : Scope ω σ) (now : Nat) :
    Nat → Nat → Task ω σ → Task ω σ → Course ω → Prop
  | value {levels start : Nat} (json : Json) :
      Scope.Unfolds scope now levels start (.value json) (.value json) .idle
  | failed {levels start : Nat} (error : ResponseError) :
      Scope.Unfolds scope now levels start (.failed error) (.failed error) .idle
  | unbegun {levels start : Nat} {job : Job ω σ} :
      (scope.width = none → levels = 0 ∨ start = now + 1) →
      Scope.Unfolds scope now levels start (.unstarted job) (.unstarted job) .idle
  | item {levels start : Nat} {group : FieldGroup} {type : TypeRef} {path : Path}
      {answer : Except ResolverFailure (Resolved ω)} {t : Task ω σ} {course : Course ω} :
      Scope.Unfolds scope now (levels + 1) start (scope.completeAnswer group type path answer) t
        course →
      Scope.Unfolds scope now (levels + 1) start (.unstarted (.item group type path answer)) t course
  | refused {levels start : Nat} {site : Site ω σ} {group : FieldGroup}
      {definition : FieldDefinition ω σ} {fault : FieldFault} :
      scope.coerceArguments group.first definition.arguments = .error fault →
      Scope.Unfolds scope now (levels + 1) start (.unstarted (.field site group definition))
        (fault.toTask (site.fieldPath group) group) .idle
  | read {levels start : Nat} {site : Site ω σ} {group : FieldGroup}
      {definition : FieldDefinition ω σ} {arguments : JsonObject} {t : Task ω σ} {course : Course ω} :
      scope.coerceArguments group.first definition.arguments = .ok arguments →
      definition.resolver? = none →
      Scope.Unfolds scope now (levels + 1) start
        (scope.completeAnswer group definition.type (site.fieldPath group)
          (site.info group arguments).defaultAnswer) t course →
      Scope.Unfolds scope now (levels + 1) start (.unstarted (.field site group definition)) t course
  | called {levels start started ended : Nat} {site : Site ω σ} {group : FieldGroup}
      {definition : FieldDefinition ω σ} {arguments : JsonObject} {resolver : Resolver ω σ}
      {answer : Except ResolverFailure (Resolved ω)} {t : Task ω σ} {next : Course ω} :
      scope.coerceArguments group.first definition.arguments = .ok arguments →
      definition.resolver? = some resolver → resolver.Gives (site.info group arguments) answer →
      (scope.width = none →
        started = start ∧ ended = start + resolver.suspension.getD 0 ∧ ended ≤ now) →
      Scope.Unfolds scope now (levels + 1) ended
        (scope.completeAnswer group definition.type (site.fieldPath group) answer) t next →
      Scope.Unfolds scope now (levels + 1) start (.unstarted (.field site group definition)) t
        (.call (site.info group arguments) resolver.suspension started ended answer next)
  | waiting {levels start started rounds left : Nat} {site : Site ω σ} {group : FieldGroup}
      {definition : FieldDefinition ω σ} {arguments : JsonObject} {resolver : Resolver ω σ} :
      scope.coerceArguments group.first definition.arguments = .ok arguments →
      definition.resolver? = some resolver → resolver.suspension = some rounds →
      (scope.width = none → started = start ∧ start + rounds = now + 1 + left) →
      Scope.Unfolds scope now (levels + 1) start (.unstarted (.field site group definition))
        (.waiting left ⟨site.info group arguments, resolver, definition.type, group⟩)
        (.suspended (site.info group arguments) rounds started)
  | branch {levels start : Nat} {shape : Shape ω σ} {turns turns' : Turns}
      {children children' : List (Child ω σ)} {course : Course ω} :
      (scope.width = none → turns' = .together) →
      Scope.UnfoldsAll scope now levels start children children' course →
      Scope.Unfolds scope now (levels + 1) start (.branch shape turns children)
        (.branch shape turns' children') course

/-- What has become of the children of a node. -/
inductive Scope.UnfoldsAll (scope : Scope ω σ) (now : Nat) :
    Nat → Nat → List (Child ω σ) → List (Child ω σ) → Course ω → Prop
  | nil {levels start : Nat} : Scope.UnfoldsAll scope now levels start [] [] .idle
  | absent {levels start : Nat} {key : Name} {children children' : List (Child ω σ)}
      {course : Course ω} :
      Scope.UnfoldsAll scope now levels start children children' course →
      Scope.UnfoldsAll scope now levels start (.absent key :: children) (.absent key :: children')
        course
  | cons {levels start : Nat} {position : Position} {t t' : Task ω σ}
      {children children' : List (Child ω σ)} {first later : Course ω} :
      Scope.Unfolds scope now levels start t t' first →
      Scope.UnfoldsAll scope now levels start children children' later →
      Scope.UnfoldsAll scope now levels start (.mk position t :: children)
        (.mk position t' :: children') (.together first later)

end

/-- A course with the events that a round adds to it. -/
structure Course.Grows (now : Nat) (course course' : Course ω) (events : List (Event ω)) : Prop where
  timeline : course'.timeline.Perm (course.timeline ++ events.map (now + 1, ·))
  span_le : course.span ≤ course'.span

namespace Course.Grows

variable {now : Nat} {a b c a' b' : Course ω} {es es' : List (Event ω)}

theorem refl : a.Grows now a [] :=
  ⟨by simp, Nat.le_refl _⟩

theorem trans (h : a.Grows now b es) (k : b.Grows now c es') : a.Grows now c (es ++ es') where
  timeline := by
    refine k.timeline.trans ?_
    rw [List.map_append, ← List.append_assoc]
    exact h.timeline.append_right _
  span_le := Nat.le_trans h.span_le k.span_le

theorem together (h : a.Grows now a' es) (k : b.Grows now b' es') :
    (Course.together a b).Grows now (.together a' b') (es ++ es') where
  timeline := by
    refine (h.timeline.append k.timeline).trans ?_
    show List.Perm _ ((a.timeline ++ b.timeline) ++ (es ++ es').map _)
    rw [List.map_append, List.append_assoc, List.append_assoc]
    refine List.Perm.append_left _ ?_
    rw [← List.append_assoc, ← List.append_assoc]
    exact List.perm_append_comm.append_right _
  span_le := by
    have hspan := h.span_le
    have hspan' := k.span_le
    simp only [span]
    omega

/-- What follows on the answer of a call grows by itself. -/
theorem call (h : a.Grows now a' es) (info : ResolveInfo ω) (suspension : Option Nat)
    (started ended : Nat) (answer : Except ResolverFailure (Resolved ω)) :
    (Course.call info suspension started ended answer a).Grows now
      (.call info suspension started ended answer a') es where
  timeline := by
    match suspension with
    | none => exact h.timeline.cons _
    | some _ => exact (h.timeline.cons _).cons _
  span_le := Nat.add_le_add_left h.span_le _

theorem of_idle (h : a.timeline.Perm (es.map (now + 1, ·))) : Course.idle.Grows now a es :=
  ⟨h, Nat.zero_le _⟩

end Course.Grows

/-! ## Fresh tasks -/

namespace Scope

variable {scope : Scope ω σ} {now levels start : Nat}

mutual

/-- With a limit to the width, nothing is said of when things happen. -/
theorem Unfolds.anytime (hw : scope.width ≠ none) {now' : Nat} :
    ∀ {levels start : Nat} {t t' : Task ω σ} {course : Course ω},
      scope.Unfolds now levels start t t' course → scope.Unfolds now' levels start t t' course
  | _, _, _, _, _, .value json => .value json
  | _, _, _, _, _, .failed error => .failed error
  | _, _, _, _, _, .unbegun _ => .unbegun fun h => absurd h hw
  | _, _, _, _, _, .item h => .item (h.anytime hw)
  | _, _, _, _, _, .refused hargs => .refused hargs
  | _, _, _, _, _, .read hargs hres h => .read hargs hres (h.anytime hw)
  | _, _, _, _, _, .called hargs hres hgives _ h =>
      .called hargs hres hgives (fun h => absurd h hw) (h.anytime hw)
  | _, _, _, _, _, .waiting hargs hres hsusp _ =>
      .waiting hargs hres hsusp fun h => absurd h hw
  | _, _, _, _, _, .branch hturns h => .branch hturns (h.anytime hw)

theorem UnfoldsAll.anytime (hw : scope.width ≠ none) {now' : Nat} :
    ∀ {levels start : Nat} {children children' : List (Child ω σ)} {course : Course ω},
      scope.UnfoldsAll now levels start children children' course →
        scope.UnfoldsAll now' levels start children children' course
  | _, _, _, _, _, .nil => .nil
  | _, _, _, _, _, .absent h => .absent (h.anytime hw)
  | _, _, _, _, _, .cons h hs => .cons (h.anytime hw) (hs.anytime hw)

end

/-- Children as completion leaves them have not unfolded yet. -/
theorem unfoldsAll_fresh (levels : Nat) (hstart : scope.width = none → start = now + 1) {path : Path} :
    ∀ {children : List (Child ω σ)}, (∀ child ∈ children, child.Fresh path) →
      ∃ course, scope.UnfoldsAll now levels start children children course ∧ course.timeline = []
  | [], _ => ⟨.idle, .nil, rfl⟩
  | child :: rest, hfresh => by
      obtain ⟨hchild, hrest⟩ := List.forall_mem_cons.mp hfresh
      obtain ⟨course, hcourse, hnil⟩ := unfoldsAll_fresh levels hstart hrest
      cases hchild with
      | absent key => exact ⟨course, .absent hcourse, hnil⟩
      | typename key name => exact ⟨_, .cons (.value _) hcourse, hnil⟩
      | job _ => exact ⟨_, .cons (.unbegun fun hw => .inr (hstart hw)) hcourse, hnil⟩

theorem turns_of_width_none (hw : scope.width = none) (count : Nat) :
    scope.turns count = .together := by
  rw [turns, hw]

/-! ## Steps -/

/-- What a task has become in a round that goes on with a course. -/
def Continues (scope : Scope ω σ) (now levels start : Nat) (t : Task ω σ) (course : Course ω)
    (t' : Task ω σ) (events : List (Event ω)) : Prop :=
  ∃ course', scope.Unfolds (now + 1) levels start t t' course' ∧ course.Grows now course' events

def ContinuesAll (scope : Scope ω σ) (now levels start : Nat) (children : List (Child ω σ))
    (course : Course ω) (children' : List (Child ω σ)) (events : List (Event ω)) : Prop :=
  ∃ course', scope.UnfoldsAll (now + 1) levels start children children' course' ∧
    course.Grows now course' events

/-- A step that goes on with the course of every task. -/
def KeepsUnfolding (scope : Scope ω σ) (now levels : Nat)
    (step : Task ω σ → Action ω σ (Task ω σ)) : Prop :=
  ∀ ⦃start : Nat⦄ ⦃t t' : Task ω σ⦄ ⦃course : Course ω⦄, scope.Unfolds now levels start t t' course →
    (step t').Reports (scope.Continues now levels start t course)

namespace KeepsUnfolding

variable {step : Task ω σ → Action ω σ (Task ω σ)}

theorem forEach (hstep : scope.KeepsUnfolding now levels step) :
    ∀ {children children' : List (Child ω σ)} {course : Course ω},
      scope.UnfoldsAll now levels start children children' course →
      (Action.forEach (Child.step step) children').Reports
        (scope.ContinuesAll now levels start children course)
  | _, _, _, .nil => Action.reports_pure ⟨.idle, .nil, .refl⟩
  | _, _, _, .absent h => by
      refine (Child.reports_step_absent _).bind ?_
      rintro _ _ ⟨rfl, rfl⟩
      refine (forEach hstep h).bind ?_
      rintro rest es ⟨course', hcourse, hgrows⟩
      exact Action.reports_pure ⟨course', .absent hcourse, by simpa using hgrows⟩
  | _, _, _, .cons h hs => by
      refine (Child.reports_step_mk (hstep h) _).bind ?_
      rintro _ es ⟨t, rfl, first, hfirst, hgrows⟩
      refine (forEach hstep hs).bind ?_
      rintro rest es' ⟨later, hlater, hgrows'⟩
      exact Action.reports_pure
        ⟨_, .cons hfirst hlater, by simpa using hgrows.together hgrows'⟩

end KeepsUnfolding

/-- Putting in the place of a child what it has become. -/
theorem UnfoldsAll.set {position : Position} {t : Task ω σ} :
    ∀ {children children' : List (Child ω σ)} {course : Course ω} {i : Nat},
      scope.UnfoldsAll now levels start children children' course →
      children'[i]? = some (.mk position t) →
      ∃ t₀ own, scope.Unfolds now levels start t₀ t own ∧
        ∀ t' own' es, scope.Unfolds now levels start t₀ t' own' → own.Grows now own' es →
          ∃ course', scope.UnfoldsAll now levels start children
            (children'.set i (.mk position t')) course' ∧ course.Grows now course' es
  | _, _, _, _, .nil, hi => by simp at hi
  | _, _, _, 0, .absent _, hi => by simp at hi
  | _, _, _, i + 1, .absent hs, hi => by
      obtain ⟨t₀, own, hown, hset⟩ := hs.set (by simpa using hi)
      refine ⟨t₀, own, hown, ?_⟩
      intro t' own' es hown' hgrows
      obtain ⟨course', hcourse, hgrows'⟩ := hset t' own' es hown' hgrows
      exact ⟨course', .absent hcourse, hgrows'⟩
  | _, _, _, 0, .cons h hs, hi => by
      simp only [List.getElem?_cons_zero, Option.some.injEq] at hi
      cases hi
      refine ⟨_, _, h, ?_⟩
      intro t' own' es hown' hgrows
      exact ⟨_, .cons hown' hs, by simpa using hgrows.together .refl⟩
  | _, _, _, i + 1, .cons h hs, hi => by
      obtain ⟨t₀, own, hown, hset⟩ := hs.set (by simpa using hi)
      refine ⟨t₀, own, hown, ?_⟩
      intro t' own' es hown' hgrows
      obtain ⟨course', hcourse, hgrows'⟩ := hset t' own' es hown' hgrows
      exact ⟨_, .cons h hcourse, Course.Grows.refl.together hgrows'⟩

namespace KeepsUnfolding

variable {step : Task ω σ → Action ω σ (Task ω σ)}

theorem child (hstep : scope.KeepsUnfolding now levels step) (hw : scope.width ≠ none)
    {children children' : List (Child ω σ)} {course : Course ω} {i : Nat} {c : Child ω σ}
    (hs : scope.UnfoldsAll now levels start children children' course)
    (hi : children'[i]? = some c) :
    (c.step step).Reports (fun c' es => ∃ course', scope.UnfoldsAll now levels start children
      (children'.set i c') course' ∧ course.Grows now course' es) := by
  match c, hi with
  | .absent key, hi =>
      intro state
      have hsame : children'.set i (.absent key) = children' := by
        obtain ⟨hlt, heq⟩ := List.getElem?_eq_some_iff.mp hi
        rw [← heq, List.set_getElem_self]
      refine ⟨course, ?_, .refl⟩
      show scope.UnfoldsAll now levels start children (children'.set i (.absent key)) course
      rw [hsame]
      exact hs
  | .mk position t, hi =>
      obtain ⟨t₀, own, hown, hset⟩ := hs.set hi
      refine (Child.reports_step_mk (hstep hown) position).imp ?_
      rintro _ es ⟨t', rfl, own', hown', hgrows⟩
      exact hset t' own' es (hown'.anytime hw) hgrows

theorem stepQueued (hstep : scope.KeepsUnfolding now levels step) (hw : scope.width ≠ none)
    {children : List (Child ω σ)} :
    ∀ (fuel : Nat) (waited : Bool) (queue : List Nat) {children' : List (Child ω σ)}
      {course : Course ω}, scope.UnfoldsAll now levels start children children' course →
      (Turns.stepQueued step fuel waited queue children').Reports
        (fun r es => scope.ContinuesAll now levels start children course r.2 es)
  | 0, _, _, _, course, hs => Action.reports_pure ⟨course, hs.anytime hw, .refl⟩
  | _ + 1, _, [], _, course, hs => Action.reports_pure ⟨course, hs.anytime hw, .refl⟩
  | fuel + 1, waited, i :: queue, children', course, hs => by
      rw [Turns.stepQueued]
      cases hi : children'[i]? with
      | none => exact stepQueued hstep hw fuel waited queue hs
      | some c =>
          refine (hstep.child hw hs hi).bind ?_
          rintro c' es ⟨course', hcourse, hgrows⟩
          -- The other children go on with the new child in place.
          have later : ∀ (waited : Bool) (queue : List Nat),
              (Turns.stepQueued step fuel waited queue (children'.set i c')).Reports
                (fun r es' => scope.ContinuesAll now levels start children course r.2 (es ++ es')) := by
            intro waited queue
            refine (stepQueued hstep hw fuel waited queue hcourse).imp ?_
            rintro r es' ⟨course'', hcourse', hgrows'⟩
            exact ⟨course'', hcourse', hgrows.trans hgrows'⟩
          dsimp only
          split
          · exact later false queue
          · split
            · exact Action.reports_pure ⟨course', hcourse.anytime hw, by simpa using hgrows⟩
            · exact later true (queue ++ [i])

/-- The children of a node go on with their courses, and take their turns as before. -/
theorem turns (hstep : scope.KeepsUnfolding now levels step) {turns : Turns}
    (hturns : scope.width = none → turns = .together) {children children' : List (Child ω σ)}
    {course : Course ω} (hs : scope.UnfoldsAll now levels start children children' course) :
    (turns.step step children').Reports (fun r es => (scope.width = none → r.1 = .together) ∧
      scope.ContinuesAll now levels start children course r.2 es) := by
  match turns, hturns with
  | .together, _ =>
      refine (hstep.forEach hs).bind ?_
      intro children'' es h
      exact Action.reports_pure ⟨fun _ => rfl, by simpa using h⟩
  | .queued queue, hturns =>
      have hw : scope.width ≠ none := fun hw => by cases hturns hw
      refine (hstep.stepQueued hw (2 * queue.length) false queue hs).bind ?_
      intro r es h
      exact Action.reports_pure ⟨fun h => absurd h hw, by simpa using h⟩

theorem branch (hstep : scope.KeepsUnfolding now levels step) {shape : Shape ω σ}
    {turns : Turns} (hturns : scope.width = none → turns = .together)
    {children children' : List (Child ω σ)} {course : Course ω}
    (hs : scope.UnfoldsAll now levels start children children' course) (turns₀ : Turns) :
    (stepChildren step (.branch shape turns children')).Reports
      (scope.Continues now (levels + 1) start (.branch shape turns₀ children) course) := by
  refine (hstep.turns hturns hs).bind ?_
  rintro r es ⟨hr, course', hcourse, hgrows⟩
  exact Action.reports_pure ⟨course', .branch hr hcourse, by simpa using hgrows⟩

theorem freshBranch (hstep : scope.KeepsUnfolding now levels step)
    (hstart : scope.width = none → start = now + 1) (shape : Shape ω σ) {path : Path}
    {children : List (Child ω σ)} (hfresh : ∀ child ∈ children, child.Fresh path) (count : Nat) :
    (stepChildren step (.branch shape (scope.turns count) children)).Reports
      (scope.Continues now (levels + 1) start (.branch shape (scope.turns count) children) .idle) := by
  obtain ⟨course, hcourse, hnil⟩ := unfoldsAll_fresh levels hstart hfresh
  refine (hstep.branch (fun hw => turns_of_width_none hw count) hcourse (scope.turns count)).imp ?_
  rintro t es ⟨course', hcourse', hgrows⟩
  refine ⟨course', hcourse', .of_idle ?_⟩
  simpa [hnil] using hgrows.timeline

/-- What an answer is completed to goes on in the same round. -/
theorem completeAnswer (hstep : scope.KeepsUnfolding now levels step)
    (hstart : scope.width = none → start = now + 1) (group : FieldGroup) (type : TypeRef)
    (path : Path) (answer : Except ResolverFailure (Resolved ω)) :
    (stepChildren step (scope.completeAnswer group type path answer)).Reports
      (scope.Continues now (levels + 1) start (scope.completeAnswer group type path answer) .idle) := by
  have hc := scope.completes_completeAnswer group type path answer
  generalize scope.completeAnswer group type path answer = task at hc
  cases hc with
  | failed fault => exact Action.reports_pure ⟨.idle, .failed _, .refl⟩
  | null _ => exact Action.reports_pure ⟨.idle, .value _, .refl⟩
  | scalar _ _ _ _ => exact Action.reports_pure ⟨.idle, .value _, .refl⟩
  | enum _ _ _ => exact Action.reports_pure ⟨.idle, .value _, .refl⟩
  | object _ _ _ => exact hstep.freshBranch hstart _ (scope.fresh_fieldChildren _ _) _
  | list _ _ => exact hstep.freshBranch hstart _ (fresh_itemChildren _ _ _ _) _

/-- A job begins, and its task goes on in the same round. -/
theorem begin (hstep : scope.KeepsUnfolding now levels step)
    (hstart : scope.width = none → start = now + 1) (job : Job ω σ) :
    (scope.begin job >>= stepChildren step).Reports
      (scope.Continues now (levels + 1) start (.unstarted job) .idle) := by
  have hnow : scope.width = none → now + 1 = now + 1 := fun _ => rfl
  -- A resolver that answers in this round has no suspension.
  have htime : ∀ {suspension : Option Nat}, suspension.getD 0 = 0 → scope.width = none →
      now + 1 = start ∧ now + 1 = start + suspension.getD 0 ∧ now + 1 ≤ now + 1 := by
    intro suspension hzero hw
    rw [hzero, hstart hw]
    exact ⟨rfl, rfl, Nat.le_refl _⟩
  refine (scope.reports_begin job).bind ?_
  intro task es hbegin
  cases hbegin with
  | item group type path answer =>
      refine (hstep.completeAnswer hstart group type path answer).imp ?_
      rintro t es ⟨course, hcourse, hgrows⟩
      exact ⟨course, .item hcourse, hgrows⟩
  | refused hargs => exact Action.reports_pure ⟨.idle, .refused hargs, .refl⟩
  | read hargs hres =>
      refine (hstep.completeAnswer hstart _ _ _ _).imp ?_
      rintro t es ⟨course, hcourse, hgrows⟩
      exact ⟨course, .read hargs hres hcourse, hgrows⟩
  | called hargs hres hsusp hgives =>
      refine (hstep.completeAnswer hnow _ _ _ _).imp ?_
      rintro t es ⟨next, hnext, hgrows⟩
      refine ⟨_, .called hargs hres hgives (htime (by rw [hsusp]; rfl)) hnext, .of_idle ?_⟩
      rw [hsusp]
      exact hgrows.timeline.cons _
  | atOnce hargs hres hsusp hgives =>
      refine (hstep.completeAnswer hnow _ _ _ _).imp ?_
      rintro t es ⟨next, hnext, hgrows⟩
      refine ⟨_, .called hargs hres hgives (htime (by rw [hsusp]; rfl)) hnext, .of_idle ?_⟩
      rw [hsusp]
      exact (hgrows.timeline.cons _).cons _
  | @suspended _ _ _ _ _ rounds hargs hres hsusp =>
      refine Action.reports_pure ⟨_, .waiting hargs hres hsusp ?_, .of_idle (.refl _)⟩
      intro hw
      rw [hstart hw]
      exact ⟨rfl, by omega⟩

/-- A suspended call is answered, and its task goes on in the same round. -/
theorem resume (hstep : scope.KeepsUnfolding now levels step) {site : Site ω σ} {group : FieldGroup}
    {definition : FieldDefinition ω σ} {arguments : JsonObject} {resolver : Resolver ω σ}
    {rounds started : Nat}
    (hargs : scope.coerceArguments group.first definition.arguments = .ok arguments)
    (hres : definition.resolver? = some resolver) (hsusp : resolver.suspension = some rounds)
    (htime : scope.width = none → started = start ∧ start + rounds = now + 1) :
    (scope.resume ⟨site.info group arguments, resolver, definition.type, group⟩ >>=
      stepChildren step).Reports (scope.Continues now (levels + 1) start
        (.unstarted (.field site group definition))
        (.suspended (site.info group arguments) rounds started)) := by
  refine (scope.reports_answer .ended _).bind ?_
  rintro task _ ⟨answer, hgives, rfl, rfl⟩
  have hnow : scope.width = none → now + 1 = now + 1 := fun _ => rfl
  have htime' : scope.width = none → started = start ∧
      now + 1 = start + resolver.suspension.getD 0 ∧ now + 1 ≤ now + 1 := by
    intro hw
    rw [hsusp]
    exact ⟨(htime hw).1, (htime hw).2.symm, Nat.le_refl _⟩
  refine (hstep.completeAnswer hnow _ _ _ _).imp ?_
  rintro t es ⟨next, hnext, hgrows⟩
  refine ⟨_, .called hargs hres hgives htime' hnext, ?_, ?_⟩
  · rw [hsusp]
    exact (hgrows.timeline.cons _).cons _
  · rw [hsusp]
    exact Nat.le_add_right _ _

/-- A step of a task with a course. -/
theorem stepWith (hstep : scope.KeepsUnfolding now levels step) :
    ∀ {n start : Nat} {t t' : Task ω σ} {course : Course ω},
      scope.Unfolds now n start t t' course → n = levels + 1 →
      (scope.stepWith step t').Reports (scope.Continues now n start t course)
  | _, _, _, _, _, .value json, _ => Action.reports_pure ⟨.idle, .value json, .refl⟩
  | _, _, _, _, _, .failed error, _ => Action.reports_pure ⟨.idle, .failed error, .refl⟩
  | _, _, _, _, _, .unbegun hstart, rfl =>
      hstep.begin (fun hw => (hstart hw).resolve_left (Nat.succ_ne_zero levels)) _
  | _, _, _, _, _, .item h, hn => by
      refine (stepWith hstep h hn).imp ?_
      rintro t es ⟨course, hcourse, hgrows⟩
      exact ⟨course, .item hcourse, hgrows⟩
  | _, _, _, _, _, .refused hargs, _ => Action.reports_pure ⟨.idle, .refused hargs, .refl⟩
  | _, _, _, _, _, .read hargs hres h, hn => by
      refine (stepWith hstep h hn).imp ?_
      rintro t es ⟨course, hcourse, hgrows⟩
      exact ⟨course, .read hargs hres hcourse, hgrows⟩
  | _, _, _, _, _, .called hargs hres hgives htime h, hn => by
      refine (stepWith hstep h hn).imp ?_
      rintro t es ⟨next, hnext, hgrows⟩
      refine ⟨_, .called hargs hres hgives ?_ hnext, hgrows.call _ _ _ _ _⟩
      intro hw
      obtain ⟨hstarted, hended, hle⟩ := htime hw
      exact ⟨hstarted, hended, Nat.le_succ_of_le hle⟩
  | _, _, _, _, _, @Unfolds.waiting _ _ _ _ _ _ _ _ 0 _ _ _ _ _ hargs hres hsusp htime, rfl =>
      hstep.resume hargs hres hsusp htime
  | _, _, _, _, _, @Unfolds.waiting _ _ _ _ _ _ _ _ (left + 1) _ _ _ _ _ hargs hres hsusp htime, _ => by
      refine Action.reports_pure ⟨_, .waiting hargs hres hsusp ?_, .refl⟩
      intro hw
      obtain ⟨hstarted, hended⟩ := htime hw
      exact ⟨hstarted, by omega⟩
  | _, _, _, _, _, .branch hturns hs, rfl => hstep.branch hturns hs _

end KeepsUnfolding

/-- A round goes on with the course of every task. -/
theorem keepsUnfolding_round (scope : Scope ω σ) (now : Nat) :
    ∀ levels, scope.KeepsUnfolding now levels (scope.round levels)
  | 0 => by
      intro start t t' course h
      cases h with
      | value json => exact Action.reports_pure ⟨.idle, .value json, .refl⟩
      | failed error => exact Action.reports_pure ⟨.idle, .failed error, .refl⟩
      | unbegun _ => exact Action.reports_pure ⟨.idle, .unbegun fun _ => .inl rfl, .refl⟩
  | levels + 1 => fun _ _ _ _ h => (keepsUnfolding_round scope now levels).stepWith h rfl

end Scope

/-! ## Rounds -/

/-- A task that stands just below the levels that are worked on has a property. -/
def Task.Below (P : Task ω σ → Prop) : Nat → Task ω σ → Prop
  | 0, task => P task
  | levels + 1, .branch _ _ children =>
    ∃ position task, Child.mk position task ∈ children ∧ task.Below P levels
  | _ + 1, _ => False

/-- Some work stands below the levels that are worked on. -/
def Task.Cut (levels : Nat) (task : Task ω σ) : Prop :=
  task.Below (fun t => t.outcome? = none) levels

namespace Scope

variable {scope : Scope ω σ} {now : Nat}

/-- What stands below the levels stays there. -/
theorem roundRel_below (scope : Scope ω σ) (log : List (Event ω)) (P : Task ω σ → Prop) :
    scope.RoundRel log (fun levels t t' => t.Below P levels → t'.Below P levels) where
  refl _ := id
  trans _ _ _ h k := k ∘ h
  begun _ h := h.elim
  waited h := h.elim
  resumed _ h := h.elim
  branched h _ := by
    rintro ⟨position, t, hmem, hbelow⟩
    obtain ⟨t', hmem', ht⟩ := Child.exists_mk_of_forall₂ h hmem
    exact ⟨position, t', hmem', ht hbelow⟩

theorem reports_round_cut (scope : Scope ω σ) (levels : Nat) (t : Task ω σ) :
    (scope.round levels t).Reports (fun t' _ => t.Cut levels → t'.Cut levels) :=
  .of_ensures fun log => (scope.roundRel_below log _).round levels t

theorem not_cut_of_finished : ∀ {levels : Nat} {t : Task ω σ} {o : Outcome},
    t.outcome? = some o → ¬ t.Cut levels
  | 0, t, o, h, hcut => by
      rw [show t.outcome? = none from hcut] at h
      cases h
  | _ + 1, .value _, _, _, hcut => hcut.elim
  | _ + 1, .failed _, _, _, hcut => hcut.elim
  | _ + 1, .branch _ _ children, _, h, hcut => by
      obtain ⟨os, hos, -⟩ := Option.map_eq_some_iff.mp h
      obtain ⟨position, t, hmem, hcut⟩ := hcut
      obtain ⟨o, ho⟩ := Option.isSome_iff_exists.mp (Child.isFinished_of_mem hos _ hmem)
      exact not_cut_of_finished ho hcut

mutual

/-- Without a limit to the width, finished work is as late as its course demands, and no later. -/
theorem Unfolds.span_le (hw : scope.width = none) :
    ∀ {levels start : Nat} {t t' : Task ω σ} {course : Course ω} {o : Outcome},
      scope.Unfolds now levels start t t' course → t'.outcome? = some o → start ≤ now →
      start + course.span ≤ now
  | _, _, _, _, _, _, .value _, _, hle => hle
  | _, _, _, _, _, _, .failed _, _, hle => hle
  | _, _, _, _, _, _, .unbegun _, ho, _ => by simp [Task.outcome?] at ho
  | _, _, _, _, _, _, .item h, ho, hle => h.span_le hw ho hle
  | _, _, _, _, _, _, .refused _, _, hle => hle
  | _, _, _, _, _, _, .read _ _ h, ho, hle => h.span_le hw ho hle
  | _, _, _, _, _, _, .called _ _ _ htime h, ho, _ => by
      obtain ⟨_, hended, hle⟩ := htime hw
      have hnext := h.span_le hw ho hle
      simp only [Course.span]
      omega
  | _, _, _, _, _, _, .waiting _ _ _ _, ho, _ => by simp [Task.outcome?] at ho
  | _, _, _, _, _, _, .branch _ hs, ho, hle => by
      obtain ⟨os, hos, -⟩ := Option.map_eq_some_iff.mp ho
      exact hs.span_le hw hos hle

theorem UnfoldsAll.span_le (hw : scope.width = none) :
    ∀ {levels start : Nat} {children children' : List (Child ω σ)} {course : Course ω}
      {os : List (PathSegment × Outcome)},
      scope.UnfoldsAll now levels start children children' course →
      Child.outcomes? children' = some os → start ≤ now → start + course.span ≤ now
  | _, _, _, _, _, _, .nil, _, hle => hle
  | _, _, _, _, _, os, .absent hs, hos, hle =>
      hs.span_le hw (show Child.outcomes? _ = some os from hos) hle
  | _, _, _, _, _, _, .cons h hs, hos, hle => by
      obtain ⟨o, os', ho, hos', -⟩ := Child.outcomes?_mk_cons.mp hos
      have hfirst := h.span_le hw ho hle
      have hlater := hs.span_le hw hos' hle
      simp only [Course.span]
      omega

end

mutual

/-- Without a limit to the width, work that is not finished is early for its course, unless it stands
below the levels. -/
theorem Unfolds.lt_span (hw : scope.width = none) :
    ∀ {levels start : Nat} {t t' : Task ω σ} {course : Course ω},
      scope.Unfolds now levels start t t' course → t'.outcome? = none → ¬ t'.Cut levels →
      now < start + course.span
  | _, _, _, _, _, .value _, ho, _ => by cases ho
  | _, _, _, _, _, .failed _, ho, _ => by cases ho
  | levels, _, _, _, _, .unbegun hstart, ho, hcut => by
      rcases hstart hw with rfl | rfl
      · exact absurd ho hcut
      · simp only [Course.span]
        omega
  | _, _, _, _, _, .item h, ho, hcut => h.lt_span hw ho hcut
  | _, _, _, _, _, .refused _, ho, _ => by cases ho
  | _, _, _, _, _, .read _ _ h, ho, hcut => h.lt_span hw ho hcut
  | _, _, _, _, _, .called _ _ _ htime h, ho, hcut => by
      obtain ⟨_, hended, _⟩ := htime hw
      have hnext := h.lt_span hw ho hcut
      simp only [Course.span]
      omega
  | _, _, _, _, _, .waiting _ _ _ htime, _, _ => by
      obtain ⟨_, hended⟩ := htime hw
      simp only [Course.span]
      omega
  | _, _, _, _, _, .branch _ hs, ho, hcut =>
      hs.lt_span hw (Option.map_eq_none_iff.mp ho)
        fun position t hmem ht => hcut ⟨position, t, hmem, ht⟩

theorem UnfoldsAll.lt_span (hw : scope.width = none) :
    ∀ {levels start : Nat} {children children' : List (Child ω σ)} {course : Course ω},
      scope.UnfoldsAll now levels start children children' course →
      Child.outcomes? children' = none →
      (∀ position t, .mk position t ∈ children' → ¬ t.Cut levels) → now < start + course.span
  | _, _, _, _, _, .nil, hos, _ => by cases hos
  | _, _, _, _, _, .absent hs, hos, hcut =>
      hs.lt_span hw (show Child.outcomes? _ = none from hos)
        fun position t hmem => hcut position t (List.mem_cons_of_mem _ hmem)
  | _, _, _, .mk _ t :: _, _, .cons h hs, hos, hcut => by
      simp only [Course.span]
      match ho : t.outcome? with
      | none =>
          have hfirst := h.lt_span hw ho (hcut _ _ List.mem_cons_self)
          omega
      | some o =>
          have hlater := hs.lt_span hw (Child.outcomes?_later_eq_none ho hos)
            fun position t hmem => hcut position t (List.mem_cons_of_mem _ hmem)
          omega

end

mutual

/-- Without a limit to the width, everything happens in time. -/
theorem Unfolds.onTime (hw : scope.width = none) :
    ∀ {levels start : Nat} {t t' : Task ω σ} {course : Course ω},
      scope.Unfolds now levels start t t' course → course.OnTime start
  | _, _, _, _, _, .value _ => trivial
  | _, _, _, _, _, .failed _ => trivial
  | _, _, _, _, _, .unbegun _ => trivial
  | _, _, _, _, _, .item h => h.onTime hw
  | _, _, _, _, _, .refused _ => trivial
  | _, _, _, _, _, .read _ _ h => h.onTime hw
  | _, _, _, _, _, .called _ _ _ htime h =>
      have ⟨hstarted, hended, _⟩ := htime hw
      ⟨hstarted, hstarted ▸ hended, h.onTime hw⟩
  | _, _, _, _, _, .waiting _ _ _ htime => (htime hw).1
  | _, _, _, _, _, .branch _ hs => hs.onTime hw

theorem UnfoldsAll.onTime (hw : scope.width = none) :
    ∀ {levels start : Nat} {children children' : List (Child ω σ)} {course : Course ω},
      scope.UnfoldsAll now levels start children children' course → course.OnTime start
  | _, _, _, _, _, .nil => trivial
  | _, _, _, _, _, .absent hs => hs.onTime hw
  | _, _, _, _, _, .cons h hs => ⟨h.onTime hw, hs.onTime hw⟩

end

mutual

/-- When work is finished, every call is answered. -/
theorem Unfolds.settled : ∀ {levels start : Nat} {t t' : Task ω σ} {course : Course ω} {o : Outcome},
    scope.Unfolds now levels start t t' course → t'.outcome? = some o → course.Settled
  | _, _, _, _, _, _, .value _, _ => trivial
  | _, _, _, _, _, _, .failed _, _ => trivial
  | _, _, _, _, _, _, .unbegun _, _ => trivial
  | _, _, _, _, _, _, .item h, ho => h.settled ho
  | _, _, _, _, _, _, .refused _, _ => trivial
  | _, _, _, _, _, _, .read _ _ h, ho => h.settled ho
  | _, _, _, _, _, _, .called _ _ _ _ h, ho => h.settled ho
  | _, _, _, _, _, _, .waiting _ _ _ _, ho => by simp [Task.outcome?] at ho
  | _, _, _, _, _, _, .branch _ hs, ho => by
      obtain ⟨os, hos, -⟩ := Option.map_eq_some_iff.mp ho
      exact hs.settled hos

theorem UnfoldsAll.settled : ∀ {levels start : Nat} {children children' : List (Child ω σ)}
    {course : Course ω} {os : List (PathSegment × Outcome)},
    scope.UnfoldsAll now levels start children children' course →
    Child.outcomes? children' = some os → course.Settled
  | _, _, _, _, _, _, .nil, _ => trivial
  | _, _, _, _, _, os, .absent hs, hos => hs.settled (show Child.outcomes? _ = some os from hos)
  | _, _, _, _, _, _, .cons h hs, hos => by
      obtain ⟨o, os', ho, hos', -⟩ := Child.outcomes?_mk_cons.mp hos
      exact ⟨h.settled ho, hs.settled hos'⟩

end

end Scope

end GraphQLEngine
