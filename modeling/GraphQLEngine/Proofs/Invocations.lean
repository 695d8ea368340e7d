/-
Which resolvers are called, and how often.

The calls of an execution are read off its account: one for each field with a
resolver of each object that was completed, if the arguments of the field are
in order (`Scope.invocation?`).  Finished work has an account that agrees with
its course in this (`Scope.WorkUnfolds.exists_calls`), and from that it follows
that every resolver is called once for each place that was reached, and never
otherwise (`execute_callsResolvers`).  In a mutation, the fields after one that
passes a null on are not reached.

In which order resolvers are called is not said here.
-/
import GraphQLEngine.Proofs.Nesting

namespace GraphQLEngine

variable {ω σ : Type}

/-! ## Expected calls -/

namespace Scope

/-- The call for a field with a definition, if it has a resolver and its arguments are in order. -/
def callOf? (scope : Scope ω σ) (site : Site ω σ) (group : FieldGroup)
    (definition : FieldDefinition ω σ) : Option (ResolveInfo ω) :=
  match definition.resolver?, scope.coerceArguments group.first definition.arguments with
  | some _, .ok arguments => some (site.info group arguments)
  | _, _ => none

/-- The call for the fields of a group on an object. -/
def invocation? (scope : Scope ω σ) (site : Site ω σ) (group : FieldGroup) : Option (ResolveInfo ω) :=
  if group.first.name = "__typename" then none
  else (site.objectType.fields.get? group.first.name).bind (scope.callOf? site group)

theorem path_of_callOf? {scope : Scope ω σ} {site : Site ω σ} {group : FieldGroup}
    {definition : FieldDefinition ω σ} {info : ResolveInfo ω}
    (h : scope.callOf? site group definition = some info) : info.path = site.fieldPath group := by
  rw [callOf?] at h
  split at h
  · cases h
    rfl
  · cases h

theorem path_of_invocation? {scope : Scope ω σ} {site : Site ω σ} {group : FieldGroup}
    {info : ResolveInfo ω} (h : scope.invocation? site group = some info) :
    info.path = site.fieldPath group := by
  rw [invocation?] at h
  split at h
  · cases h
  · obtain ⟨definition, _, hcall⟩ := Option.bind_eq_some_iff.mp h
    exact path_of_callOf? hcall

end Scope

namespace Opened

/-- A field of an object was worked on. -/
def reaches (opened : Opened ω σ) (group : FieldGroup) : Bool :=
  opened.parts.any (fun part => part.segment = .key group.key)

theorem reaches_iff {opened : Opened ω σ} {group : FieldGroup} :
    opened.reaches group = true ↔ ∃ part ∈ opened.parts, part.segment = .key group.key := by
  simp [reaches]

/-- The call for a field of an object, if the field was worked on. -/
def call? (scope : Scope ω σ) (opened : Opened ω σ) (group : FieldGroup) : Option (ResolveInfo ω) :=
  if opened.reaches group then scope.invocation? opened.site group else none

/-- All fields of an object that have an entry were worked on. -/
def Full (scope : Scope ω σ) (opened : Opened ω σ) : Prop :=
  opened.parts.map Placed.segment =
    (opened.site.objectType.responseKeys (opened.groups scope)).map .key

end Opened

/-- A call for a field of an object that was completed within an account. -/
def Account.Invokes (scope : Scope ω σ) (selections : List Selection) (account : Account ω σ)
    (info : ResolveInfo ω) : Prop :=
  ∃ opened group, account.Opens scope selections opened ∧ group ∈ opened.groups scope ∧
    opened.call? scope group = some info

/-- Calls that are just those for the objects within an account, all of which are full. -/
structure Account.Calls (scope : Scope ω σ) (selections : List Selection) (account : Account ω σ)
    (calls : List (ResolveInfo ω)) : Prop where
  mem_iff : ∀ info, info ∈ calls ↔ account.Invokes scope selections info
  full : ∀ opened, account.Opens scope selections opened → opened.Full scope

namespace Account.Calls

variable {scope : Scope ω σ} {selections : List Selection}

theorem value (json : Json) : (Account.value json : Account ω σ).Calls scope selections [] where
  mem_iff info := by
    refine ⟨nofun, ?_⟩
    rintro ⟨_, _, ho, _⟩
    cases ho
  full _ ho := by cases ho

theorem failed (error : ResponseError) :
    (Account.failed error : Account ω σ).Calls scope selections [] where
  mem_iff info := by
    refine ⟨nofun, ?_⟩
    rintro ⟨_, _, ho, _⟩
    cases ho
  full _ ho := by cases ho

theorem answered {account : Account ω σ} {calls : List (ResolveInfo ω)}
    (h : account.Calls scope selections calls) (answer : Except ResolverFailure (Resolved ω)) :
    (Account.answered answer account).Calls scope selections calls where
  mem_iff info := by
    rw [h.mem_iff]
    constructor
    · rintro ⟨opened, group, ho, hcall⟩
      exact ⟨opened, group, .answered ho, hcall⟩
    · rintro ⟨opened, group, ho, hcall⟩
      cases ho with
      | answered ho => exact ⟨opened, group, ho, hcall⟩
  full opened ho := by
    cases ho with
    | answered ho => exact h.full opened ho

end Account.Calls

/-! ## Calls of tasks -/

/-- The calls for a job that came to an account: its own, and those below. -/
def Job.Calls (scope : Scope ω σ) (account : Account ω σ) (calls : List (ResolveInfo ω)) :
    Job ω σ → Prop
  | .field site group definition => ∃ below, account.Calls scope group.selections below ∧
      calls = (scope.callOf? site group definition).toList ++ below
  | .item group _ _ _ => account.Calls scope group.selections calls

mutual

/-- The calls for a task that came to an account. -/
inductive Scope.TaskCalls (scope : Scope ω σ) :
    Task ω σ → Account ω σ → List (ResolveInfo ω) → Prop
  | value (json : Json) : Scope.TaskCalls scope (.value json) (.value json) []
  | failed (error : ResponseError) : Scope.TaskCalls scope (.failed error) (.failed error) []
  | job {job : Job ω σ} {account : Account ω σ} {calls : List (ResolveInfo ω)} :
      job.Calls scope account calls → Scope.TaskCalls scope (.unstarted job) account calls
  | branch {shape : Shape ω σ} {turns : Turns} {children : List (Child ω σ)}
      {parts : List (Placed ω σ)} {calls : List (ResolveInfo ω)} :
      Scope.PartsCall scope children parts calls →
      Scope.TaskCalls scope (.branch shape turns children) (.branch shape parts) calls

/-- The calls for children that came to parts. -/
inductive Scope.PartsCall (scope : Scope ω σ) :
    List (Child ω σ) → List (Placed ω σ) → List (ResolveInfo ω) → Prop
  | nil : Scope.PartsCall scope [] [] []
  | absent {key : Name} {children : List (Child ω σ)} {parts : List (Placed ω σ)}
      {calls : List (ResolveInfo ω)} : Scope.PartsCall scope children parts calls →
      Scope.PartsCall scope (.absent key :: children) parts calls
  | cons {position : Position} {task : Task ω σ} {account : Account ω σ}
      {children : List (Child ω σ)} {parts : List (Placed ω σ)} {own later : List (ResolveInfo ω)} :
      Scope.TaskCalls scope task account own → Scope.PartsCall scope children parts later →
      Scope.PartsCall scope (.mk position task :: children) (.mk position account :: parts)
        (own ++ later)

end

namespace Scope

variable {scope : Scope ω σ}

namespace PartsCall

/-- The calls for a part are among the calls for all. -/
theorem exists_own : ∀ {children : List (Child ω σ)} {parts : List (Placed ω σ)}
    {calls : List (ResolveInfo ω)}, scope.PartsCall children parts calls → ∀ part ∈ parts,
    ∃ task own, .mk part.position task ∈ children ∧ scope.TaskCalls task part.account own ∧ own ⊆ calls
  | _, _, _, .nil, _, hpart => by cases hpart
  | _, _, _, .absent h, part, hpart => by
      obtain ⟨task, own, hmem, htask⟩ := exists_own h part hpart
      exact ⟨task, own, List.mem_cons_of_mem _ hmem, htask⟩
  | _, _, _, .cons h hs, part, hpart => by
      rcases List.mem_cons.mp hpart with rfl | hpart
      · exact ⟨_, _, List.mem_cons_self, h, List.subset_append_left _ _⟩
      · obtain ⟨task, own, hmem, htask, hsub⟩ := exists_own hs part hpart
        exact ⟨task, own, List.mem_cons_of_mem _ hmem, htask,
          List.Subset.trans hsub (List.subset_append_right _ _)⟩

/-- Every call is one for some part. -/
theorem exists_part {info : ResolveInfo ω} : ∀ {children : List (Child ω σ)}
    {parts : List (Placed ω σ)} {calls : List (ResolveInfo ω)},
    scope.PartsCall children parts calls → info ∈ calls →
    ∃ part ∈ parts, ∃ task own, .mk part.position task ∈ children ∧
      scope.TaskCalls task part.account own ∧ info ∈ own
  | _, _, _, .nil, hinfo => by cases hinfo
  | _, _, _, .absent h, hinfo => by
      obtain ⟨part, hpart, task, own, hmem, htask⟩ := exists_part h hinfo
      exact ⟨part, hpart, task, own, List.mem_cons_of_mem _ hmem, htask⟩
  | _, _, _, .cons h hs, hinfo => by
      rcases List.mem_append.mp hinfo with hinfo | hinfo
      · exact ⟨_, List.mem_cons_self, _, _, List.mem_cons_self, h, hinfo⟩
      · obtain ⟨part, hpart, task, own, hmem, htask⟩ := exists_part hs hinfo
        exact ⟨part, List.mem_cons_of_mem _ hpart, task, own, List.mem_cons_of_mem _ hmem, htask⟩

/-- The child for a group of an object: the field that is defined, or the name of the type. -/
theorem of_fieldChild {site : Site ω σ} {group : FieldGroup} {position : Position} {task : Task ω σ}
    {account : Account ω σ} {own : List (ResolveInfo ω)}
    (hchild : fieldChild site group = .mk position task) (h : scope.TaskCalls task account own) :
    ∃ below, account.Calls scope group.selections below ∧
      own = (scope.invocation? site group).toList ++ below := by
  by_cases hn : group.first.name = "__typename"
  · rw [fieldChild_typename hn] at hchild
    cases hchild
    cases h
    exact ⟨[], .value _, by rw [invocation?, if_pos hn]; rfl⟩
  · match hd : site.objectType.fields.get? group.first.name with
    | none =>
        rw [fieldChild_absent hn hd] at hchild
        cases hchild
    | some definition =>
        rw [fieldChild_field hn hd] at hchild
        cases hchild
        cases h with
        | job hjob =>
            obtain ⟨below, hbelow, rfl⟩ := hjob
            exact ⟨below, hbelow, by rw [invocation?, if_neg hn, hd]; rfl⟩

section Object

variable {site : Site ω σ} {selections : List Selection} {groups : List FieldGroup}
  {parts : List (Placed ω σ)} {calls : List (ResolveInfo ω)}

/-- The part for a group, with its calls. -/
theorem exists_below (hgroups : groups.Sublist (scope.collect site.objectType.name selections))
    (h : scope.PartsCall (groups.map (fieldChild site)) parts calls) {part : Placed ω σ}
    (hpart : part ∈ parts) {group : FieldGroup}
    (hgroup : group ∈ scope.collect site.objectType.name selections)
    (hkey : part.segment = .key group.key) :
    ∃ below, part.account.Calls scope group.selections below ∧
      (scope.invocation? site group).toList ++ below ⊆ calls := by
  obtain ⟨task, own, hchild, htask, hsub⟩ := h.exists_own part hpart
  obtain ⟨group', hgroup', hchild⟩ := List.mem_map.mp hchild
  obtain rfl : group' = group := List.inj_on_of_nodup_map (scope.nodup_groupKeys_collect _ _)
    (hgroups.subset hgroup') hgroup
    (PathSegment.key.inj ((segment_of_fieldChild hchild).symm.trans hkey))
  obtain ⟨below, hbelow, rfl⟩ := of_fieldChild hchild htask
  exact ⟨below, hbelow, hsub⟩

/-- The calls for an object are those for its fields that were worked on, and those below. -/
theorem mem_iff_invokes (hgroups : groups.Sublist (scope.collect site.objectType.name selections))
    (h : scope.PartsCall (groups.map (fieldChild site)) parts calls) (info : ResolveInfo ω) :
    info ∈ calls ↔ (Account.branch (.object site) parts).Invokes scope selections info := by
  constructor
  · intro hinfo
    obtain ⟨part, hpart, task, own, hchild, htask, hown⟩ := h.exists_part hinfo
    obtain ⟨group, hgroup, hchild⟩ := List.mem_map.mp hchild
    have hkey : part.segment = .key group.key := segment_of_fieldChild hchild
    obtain ⟨below, hbelow, rfl⟩ := of_fieldChild hchild htask
    rcases List.mem_append.mp hown with hown | hinfo
    · refine ⟨_, group, .here, hgroups.subset hgroup, ?_⟩
      rw [Opened.call?, if_pos (Opened.reaches_iff.mpr ⟨part, hpart, hkey⟩)]
      exact Option.mem_toList.mp hown
    · obtain ⟨opened, group', ho, hcall⟩ := (hbelow.mem_iff info).mp hinfo
      exact ⟨opened, group', .field hpart (hgroups.subset hgroup) hkey ho, hcall⟩
  · rintro ⟨opened, group, ho, hgroup, hcall⟩
    cases ho with
    | here =>
        rw [Opened.call?] at hcall
        split at hcall
        · obtain ⟨part, hpart, hkey⟩ := Opened.reaches_iff.mp ‹_›
          obtain ⟨below, _, hsub⟩ := h.exists_below hgroups hpart hgroup hkey
          exact hsub (List.mem_append_left _ (Option.mem_toList.mpr hcall))
        · cases hcall
    | field hpart hgroup' hkey ho =>
        obtain ⟨below, hbelow, hsub⟩ := h.exists_below hgroups hpart hgroup' hkey
        have hinfo := (hbelow.mem_iff info).mpr ⟨opened, group, ho, hgroup, hcall⟩
        exact hsub (List.mem_append_right _ hinfo)

/-- All objects below one are full. -/
theorem eq_or_full (hgroups : groups.Sublist (scope.collect site.objectType.name selections))
    (h : scope.PartsCall (groups.map (fieldChild site)) parts calls) {opened : Opened ω σ}
    (ho : (Account.branch (.object site) parts).Opens scope selections opened) :
    opened = ⟨site, selections, parts⟩ ∨ opened.Full scope := by
  cases ho with
  | here => exact .inl rfl
  | field hpart hgroup hkey ho =>
      obtain ⟨below, hbelow, _⟩ := h.exists_below hgroups hpart hgroup hkey
      exact .inr (hbelow.full opened ho)

end Object

theorem segments : ∀ {children : List (Child ω σ)} {parts : List (Placed ω σ)}
    {calls : List (ResolveInfo ω)}, scope.PartsCall children parts calls →
    parts.map Placed.segment = children.filterMap Child.segment?
  | _, _, _, .nil => rfl
  | _, _, _, .absent h => h.segments
  | _, _, _, .cons _ h => congrArg (_ :: ·) h.segments

theorem object {site : Site ω σ} {selections : List Selection} {parts : List (Placed ω σ)}
    {calls : List (ResolveInfo ω)} (h : scope.PartsCall (scope.fieldChildren site selections) parts calls) :
    (Account.branch (.object site) parts).Calls scope selections calls where
  mem_iff := mem_iff_invokes (List.Sublist.refl _) h
  full opened ho := by
    rcases eq_or_full (List.Sublist.refl _) h ho with rfl | hfull
    · exact h.segments.trans (segments_fieldChildren site _)
    · exact hfull

theorem list {group : FieldGroup} {item : TypeRef} {path : Path}
    {items : List (Except ResolverFailure (Resolved ω))} {parts : List (Placed ω σ)}
    {calls : List (ResolveInfo ω)}
    (h : scope.PartsCall (itemChildren group item path 0 items) parts calls) :
    (Account.branch .list parts).Calls scope group.selections calls := by
  have of_item : ∀ {part : Placed ω σ} {task : Task ω σ} {own : List (ResolveInfo ω)},
      .mk part.position task ∈ (itemChildren group item path 0 items : List (Child ω σ)) →
      scope.TaskCalls task part.account own → part.account.Calls scope group.selections own := by
    intro part task own hmem htask
    obtain ⟨i, answer, hchild⟩ := exists_of_mem_itemChildren hmem
    obtain ⟨position, account⟩ := part
    cases hchild
    cases htask with
    | job hjob => exact hjob
  refine ⟨?_, ?_⟩
  · intro info
    constructor
    · intro hinfo
      obtain ⟨part, hpart, task, own, hmem, htask, hown⟩ := h.exists_part hinfo
      obtain ⟨opened, group', ho, hcall⟩ := ((of_item hmem htask).mem_iff info).mp hown
      exact ⟨opened, group', .item hpart ho, hcall⟩
    · rintro ⟨opened, group', ho, hcall⟩
      cases ho with
      | item hpart ho =>
          obtain ⟨task, own, hmem, htask, hsub⟩ := h.exists_own _ hpart
          exact hsub (((of_item hmem htask).mem_iff info).mpr ⟨opened, group', ho, hcall⟩)
  · intro opened ho
    cases ho with
    | item hpart ho =>
        obtain ⟨task, own, hmem, htask, _⟩ := h.exists_own _ hpart
        exact (of_item hmem htask).full opened ho

end PartsCall

/-- The calls for an answer that was completed. -/
theorem TaskCalls.completed {group : FieldGroup} {type : TypeRef} {path : Path}
    {answer : Except ResolverFailure (Resolved ω)} {account : Account ω σ}
    {calls : List (ResolveInfo ω)}
    (h : scope.TaskCalls (scope.completeAnswer group type path answer) account calls) :
    account.Calls scope group.selections calls := by
  have hc := scope.completes_completeAnswer group type path answer
  generalize scope.completeAnswer group type path answer = task at h hc
  cases hc with
  | failed fault =>
      cases h
      exact .failed _
  | null _ =>
      cases h
      exact .value _
  | scalar _ _ _ _ =>
      cases h
      exact .value _
  | enum _ _ _ =>
      cases h
      exact .value _
  | object _ _ _ =>
      cases h with
      | branch h => exact h.object
  | list _ _ =>
      cases h with
      | branch h => exact h.list

/-! ## Finished work -/

/-- A resolver's answer in a course is in the log, if the events of the course are. -/
theorem answers_of_timeline {log : List (Event ω)} {definition : FieldDefinition ω σ}
    {resolver : Resolver ω σ} {info : ResolveInfo ω} {suspension : Option Nat} {started ended : Nat}
    {answer : Except ResolverFailure (Resolved ω)} {next : Course ω}
    (hres : definition.resolver? = some resolver) (hgives : resolver.Gives info answer)
    (hlog : ∀ e ∈ (Course.call info suspension started ended answer next).timeline, e.2 ∈ log) :
    definition.Answers log info answer := by
  obtain ⟨phase, hmem⟩ := Course.exists_answer_call info suspension started ended answer next
  rw [FieldDefinition.Answers, hres]
  exact ⟨⟨phase, hlog _ hmem⟩, hgives⟩

theorem answers_default {log : List (Event ω)} {definition : FieldDefinition ω σ}
    (hres : definition.resolver? = none) (info : ResolveInfo ω) :
    definition.Answers log info info.defaultAnswer := by
  rw [FieldDefinition.Answers, hres]

variable {now : Nat} {log : List (Event ω)}

mutual

/-- Finished work has an account, with the calls of its course. -/
theorem Unfolds.exists_calls :
    ∀ {levels start : Nat} {t t' : Task ω σ} {course : Course ω} {o : Outcome},
      scope.Unfolds now levels start t t' course → t'.outcome? = some o →
      (∀ e ∈ course.timeline, e.2 ∈ log) →
      ∃ account, scope.Accounts log t account ∧ account.outcome = o ∧
        scope.TaskCalls t account course.calls
  | _, _, _, _, _, _, .value json, ho, _ => ⟨_, .value json, Option.some.inj ho, .value json⟩
  | _, _, _, _, _, _, .failed error, ho, _ => ⟨_, .failed error, Option.some.inj ho, .failed error⟩
  | _, _, _, _, _, _, .unbegun _, ho, _ => by simp [Task.outcome?] at ho
  | _, _, _, _, _, _, .item h, ho, hlog => by
      obtain ⟨account, ha, ho, hcalls⟩ := h.exists_calls ho hlog
      exact ⟨.answered _ account, .item ha, ho, .job (hcalls.completed.answered _)⟩
  | _, _, _, _, _, _, .refused hargs, ho, _ => by
      refine ⟨_, .refused hargs, Option.some.inj ho, .job ⟨[], .failed _, ?_⟩⟩
      rw [callOf?, hargs]
      simp [Course.calls]
  | _, _, _, _, _, _, .read hargs hres h, ho, hlog => by
      obtain ⟨account, ha, ho, hcalls⟩ := h.exists_calls ho hlog
      refine ⟨.answered _ account, .field hargs (answers_default hres _) ha, ho,
        .job ⟨_, hcalls.completed.answered _, ?_⟩⟩
      rw [callOf?, hres]
      rfl
  | _, _, _, _, _, _, .called hargs hres hgives _ h, ho, hlog => by
      obtain ⟨account, ha, ho, hcalls⟩ :=
        h.exists_calls ho fun e he => hlog e (Course.mem_timeline_call_of_next he)
      have hans := answers_of_timeline hres hgives hlog
      refine ⟨.answered _ account, .field hargs hans ha, ho, .job ⟨_, hcalls.completed.answered _, ?_⟩⟩
      rw [callOf?, hres, hargs]
      rfl
  | _, _, _, _, _, _, .waiting _ _ _ _, ho, _ => by simp [Task.outcome?] at ho
  | _, _, _, _, _, _, .branch _ hs, ho, hlog => by
      obtain ⟨os, hos, rfl⟩ := Option.map_eq_some_iff.mp ho
      obtain ⟨parts, hparts, rfl, hcalls⟩ := hs.exists_calls hos hlog
      exact ⟨_, .branch hparts, rfl, .branch hcalls⟩

theorem UnfoldsAll.exists_calls :
    ∀ {levels start : Nat} {children children' : List (Child ω σ)} {course : Course ω}
      {os : List (PathSegment × Outcome)},
      scope.UnfoldsAll now levels start children children' course →
      Child.outcomes? children' = some os → (∀ e ∈ course.timeline, e.2 ∈ log) →
      ∃ parts, scope.AccountsAll log children parts ∧ Placed.outcomes parts = os ∧
        scope.PartsCall children parts course.calls
  | _, _, _, _, _, _, .nil, hos, _ => ⟨[], .nil, Option.some.inj hos, .nil⟩
  | _, _, _, _, _, os, .absent hs, hos, hlog => by
      obtain ⟨parts, hparts, ho, hcalls⟩ :=
        hs.exists_calls (show Child.outcomes? _ = some os from hos) hlog
      exact ⟨parts, .absent hparts, ho, .absent hcalls⟩
  | _, _, _, _, _, _, .cons h hs, hos, hlog => by
      obtain ⟨o, os', ho, hos', rfl⟩ := Child.outcomes?_mk_cons.mp hos
      obtain ⟨account, ha, rfl, hcalls⟩ :=
        h.exists_calls ho fun e he => hlog e (List.mem_append_left _ he)
      obtain ⟨parts, hparts, rfl, hlater⟩ :=
        hs.exists_calls hos' fun e he => hlog e (List.mem_append_right _ he)
      exact ⟨_, .cons ha hparts, rfl, .cons hcalls hlater⟩

end

/-! ## Operations -/

/-- Fields that needed no work have accounts in order, and no calls. -/
theorem exists_calls_of_fresh {path : Path} : ∀ {fields : List (Child ω σ)}
    {os : List (PathSegment × Outcome)}, (∀ child ∈ fields, child.Fresh path) →
    Child.outcomes? fields = some os →
    ∃ parts, scope.AccountsInOrder log fields parts ∧ Placed.outcomes parts = os ∧
      scope.PartsCall fields parts []
  | [], _, _, hos => ⟨[], .nil, Option.some.inj hos, .nil⟩
  | .absent _ :: rest, os, hfresh, hos => by
      obtain ⟨parts, hparts, ho, hcalls⟩ := exists_calls_of_fresh (List.forall_mem_cons.mp hfresh).2
        (show Child.outcomes? rest = some os from hos)
      exact ⟨parts, .absent hparts, ho, .absent hcalls⟩
  | .mk position t :: rest, _, hfresh, hos => by
      obtain ⟨hchild, hrest⟩ := List.forall_mem_cons.mp hfresh
      obtain ⟨o, os', ho, hos', rfl⟩ := Child.outcomes?_mk_cons.mp hos
      obtain ⟨parts, hparts, rfl, hcalls⟩ := exists_calls_of_fresh hrest hos'
      cases hchild with
      | typename key name =>
          cases ho
          exact ⟨_, .next (.value _) (by simp [Account.outcome, Outcome.settle]) hparts, rfl,
            .cons (.value _) hcalls⟩
      | job _ => simp [Task.outcome?] at ho

/-- The fields of a mutation that were worked on have accounts in order, with their calls. -/
theorem UnfoldsInTurn.exists_calls {levels start : Nat} {fields fields' : List (Child ω σ)}
    {courses : List (Course ω)} {path : Path} {os : List (PathSegment × Outcome)}
    (h : scope.UnfoldsInTurn now levels start fields fields' courses)
    (hfresh : ∀ child ∈ fields, child.Fresh path) (hos : Child.outcomes? fields' = some os)
    (hlog : ∀ e ∈ courses.flatMap Course.timeline, e.2 ∈ log) :
    ∃ n parts, scope.AccountsInOrder log fields parts ∧ Placed.outcomes parts = os ∧
      scope.PartsCall (fields.take n) parts (courses.flatMap Course.calls) := by
  induction h generalizing os with
  | @fresh _ fields _ =>
      obtain ⟨parts, hparts, ho, hcalls⟩ := exists_calls_of_fresh hfresh hos
      exact ⟨fields.length, parts, hparts, ho, by rwa [List.take_length]⟩
  | nil _ => exact ⟨0, [], .nil, Option.some.inj hos, .nil⟩
  | absent _ ih =>
      obtain ⟨n, parts, hparts, ho, hcalls⟩ := ih (List.forall_mem_cons.mp hfresh).2 hos hlog
      exact ⟨n + 1, parts, .absent hparts, ho, .absent hcalls⟩
  | wait _ _ ho => simp [Child.outcomes?, ho] at hos
  | stop _ h ho ho' hv =>
      obtain ⟨o', os', ho'', hos', rfl⟩ := Child.outcomes?_mk_cons.mp hos
      rw [ho', Option.some.injEq] at ho''
      subst ho''
      cases hos'
      rw [List.flatMap_singleton] at hlog ⊢
      obtain ⟨account, ha, rfl, hcalls⟩ := h.exists_calls ho hlog
      refine ⟨1, _, .stop ha hv, rfl, ?_⟩
      rw [← List.append_nil (Course.calls _)]
      exact .cons hcalls .nil
  | next _ h ho ho' hv _ ih =>
      obtain ⟨o', os', ho'', hos', rfl⟩ := Child.outcomes?_mk_cons.mp hos
      rw [ho', Option.some.injEq] at ho''
      subst ho''
      rw [List.flatMap_cons] at hlog ⊢
      obtain ⟨account, ha, rfl, hcalls⟩ :=
        h.exists_calls ho fun e he => hlog e (List.mem_append_left _ he)
      obtain ⟨n, parts, hparts, rfl, hlater⟩ := ih (List.forall_mem_cons.mp hfresh).2 hos'
        fun e he => hlog e (List.mem_append_right _ he)
      exact ⟨n + 1, _, .next ha hv hparts, rfl, .cons hcalls hlater⟩

/-- The parts of fields in order are those of the first fields, and only the last passes a null on. -/
theorem AccountsInOrder.inOrder {children : List (Child ω σ)} {parts : List (Placed ω σ)}
    (h : scope.AccountsInOrder log children parts) :
    parts.map Placed.segment <+: children.filterMap Child.segment? ∧
      (∀ part ∈ parts.dropLast, part.settled.value ≠ none) ∧
      (parts.map Placed.segment = children.filterMap Child.segment? ∨
        ∃ part ∈ parts, part.settled.value = none) := by
  induction h with
  | nil => exact ⟨List.prefix_rfl, nofun, .inl rfl⟩
  | absent _ ih => exact ih
  | stop _ hnone =>
      refine ⟨?_, nofun, .inr ⟨_, List.mem_cons_self, hnone⟩⟩
      exact List.cons_prefix_cons.mpr ⟨rfl, List.nil_prefix⟩
  | @next position task account children parts _ hv _ ih =>
      obtain ⟨hinitial, hlast, hend⟩ := ih
      refine ⟨List.cons_prefix_cons.mpr ⟨rfl, hinitial⟩, ?_, ?_⟩
      · match parts, hlast with
        | [], _ => exact nofun
        | part :: rest, hlast => exact List.forall_mem_cons.mpr ⟨hv, hlast⟩
      · rcases hend with heq | ⟨part, hpart, hnone⟩
        · exact .inl (congrArg (position.segment :: ·) heq)
        · exact .inr ⟨part, List.mem_cons_of_mem _ hpart, hnone⟩

/-- Finished work on an operation has an account, with the calls of its courses. -/
theorem WorkUnfolds.exists_calls {levels : Nat} {kind : OperationKind} {site : Site ω σ}
    {selections : List Selection} {work : Work ω σ} {courses : List (Course ω)} {o : Outcome}
    (h : scope.WorkUnfolds now levels (scope.operationWork kind site selections) work courses)
    (ho : work.outcome? = some o) (hlog : ∀ e ∈ courses.flatMap Course.timeline, e.2 ∈ log) :
    ∃ parts groups,
      scope.WorkAccounts log (scope.operationWork kind site selections)
        (.branch (.object site) parts) ∧
      (Account.branch (.object site) parts).outcome = o ∧
      groups.Sublist (scope.collect site.objectType.name selections) ∧
      scope.PartsCall (groups.map (fieldChild site)) parts (courses.flatMap Course.calls) ∧
      (kind ≠ .mutation → groups = scope.collect site.objectType.name selections) ∧
      (kind = .mutation → scope.AccountsInOrder log (scope.fieldChildren site selections) parts) := by
  have query : ∀ {t : Task ω σ} {course : Course ω},
      scope.Unfolds now (levels + 1) 1 (scope.objectTask site selections) t course →
      t.outcome? = some o → (∀ e ∈ course.timeline, e.2 ∈ log) →
      ∃ parts, scope.AccountsAll log (scope.fieldChildren site selections) parts ∧
        (Account.branch (.object site) parts).outcome = o ∧
        scope.PartsCall (scope.fieldChildren site selections) parts course.calls := by
    intro t course h ho hlog
    obtain ⟨account, ha, ho, hcalls⟩ := h.exists_calls ho hlog
    cases ha with
    | branch hparts =>
        cases hcalls with
        | branch hcalls => exact ⟨_, hparts, ho, hcalls⟩
  match kind, h with
  | .query, .query h =>
      rw [List.flatMap_singleton] at hlog ⊢
      obtain ⟨parts, hparts, ho, hcalls⟩ := query h ho hlog
      exact ⟨parts, _, .query (.branch hparts), ho, List.Sublist.refl _, hcalls, fun _ => rfl, nofun⟩
  | .subscription, .query h =>
      rw [List.flatMap_singleton] at hlog ⊢
      obtain ⟨parts, hparts, ho, hcalls⟩ := query h ho hlog
      exact ⟨parts, _, .query (.branch hparts), ho, List.Sublist.refl _, hcalls, fun _ => rfl, nofun⟩
  | .mutation, .mutation h =>
      obtain ⟨os, hos, rfl⟩ := Option.map_eq_some_iff.mp ho
      obtain ⟨n, parts, hparts, rfl, hcalls⟩ :=
        h.exists_calls (scope.fresh_fieldChildren site selections) hos hlog
      rw [fieldChildren, ← List.map_take] at hcalls
      exact ⟨parts, _, .mutation hparts, rfl, List.take_sublist n _, hcalls,
        fun hne => absurd rfl hne, fun _ => hparts⟩

end Scope

/-! ## Calls of executions -/

/-- The first fields of an object were worked on, up to one that passes a null on. -/
structure Opened.InOrder (scope : Scope ω σ) (opened : Opened ω σ) : Prop where
  first : opened.parts.map Placed.segment <+:
    (opened.site.objectType.responseKeys (opened.groups scope)).map .key
  last : ∀ part ∈ opened.parts.dropLast, part.settled.value ≠ none
  full : opened.Full scope ∨ ∃ part ∈ opened.parts, part.settled.value = none

/-- Calls that are made once for each field with a resolver of each object that was completed, unless
its arguments are not in order, and for nothing else.  All fields of an object are worked on, apart
from those of a mutation after one that passes a null on. -/
structure Account.CallsResolvers (scope : Scope ω σ) (kind : OperationKind)
    (selections : List Selection) (account : Account ω σ) (invocations : List (ResolveInfo ω)) :
    Prop where
  distinct : (invocations.map ResolveInfo.path).Nodup
  once : ∀ opened, account.Opens scope selections opened → ∀ group ∈ opened.groups scope,
    invocations.filter (fun info => info.path = opened.site.fieldPath group) =
      (opened.call? scope group).toList
  only : ∀ info ∈ invocations, account.Invokes scope selections info
  full : ∀ opened, account.Opens scope selections opened →
    (kind = .mutation → opened.site.path ≠ []) → opened.Full scope
  inOrder : kind = .mutation → ∀ opened, account.Opens scope selections opened →
    opened.site.path = [] → opened.InOrder scope

theorem Opened.path_of_call? {scope : Scope ω σ} {opened : Opened ω σ} {group : FieldGroup}
    {info : ResolveInfo ω} (h : opened.call? scope group = some info) :
    info.path = opened.site.fieldPath group := by
  rw [call?] at h
  split at h
  · exact Scope.path_of_invocation? h
  · cases h

/-- In a list with distinct keys, at most one member has a given key. -/
theorem filter_eq_toList {α β : Type} [DecidableEq β] {key : α → β} {b : β} {expected : Option α} :
    ∀ {l : List α}, (l.map key).Nodup → (∀ a, expected = some a ↔ a ∈ l ∧ key a = b) →
      l.filter (fun a => key a = b) = expected.toList
  | [], _, h => by
      match expected with
      | none => rfl
      | some a => exact absurd ((h a).mp rfl).1 List.not_mem_nil
  | a :: rest, hnodup, h => by
      obtain ⟨hnotmem, hnodup⟩ := List.nodup_cons.mp hnodup
      by_cases hkey : key a = b
      · have hrest : rest.filter (fun a => key a = b) = [] := by
          refine List.filter_eq_nil_iff.mpr ?_
          intro a' ha' hkey'
          exact hnotmem (List.mem_map.mpr ⟨a', ha', (of_decide_eq_true hkey').trans hkey.symm⟩)
        rw [List.filter_cons_of_pos (by simpa using hkey), hrest,
          (h a).mpr ⟨List.mem_cons_self, hkey⟩]
        rfl
      · rw [List.filter_cons_of_neg (by simpa using hkey)]
        refine filter_eq_toList hnodup ?_
        intro a'
        rw [h a', List.mem_cons]
        constructor
        · rintro ⟨rfl | ha', hkey'⟩
          · exact absurd hkey' hkey
          · exact ⟨ha', hkey'⟩
        · exact fun ⟨ha', hkey'⟩ => ⟨.inr ha', hkey'⟩

namespace Account.Exact

variable {scope : Scope ω σ} {selections : List Selection} {locations : List Location} {path : Path}
  {account : Account ω σ}

/-- A call at the place of a field is the call for that field. -/
theorem call?_of_invokes (h : account.Exact scope selections locations path) {opened : Opened ω σ}
    (ho : account.Opens scope selections opened) {group : FieldGroup}
    (hgroup : group ∈ opened.groups scope) {info : ResolveInfo ω}
    (hinvokes : account.Invokes scope selections info)
    (hpath : info.path = opened.site.fieldPath group) : opened.call? scope group = some info := by
  obtain ⟨opened', group', ho', hgroup', hcall⟩ := hinvokes
  have hsame : opened.site.path ++ [.key group.key] = opened'.site.path ++ [.key group'.key] :=
    hpath.symm.trans (Opened.path_of_call? hcall)
  obtain ⟨hsite, hkey⟩ := List.append_inj' hsame rfl
  obtain rfl := h.opens_unique ho ho' hsite
  obtain rfl : group = group' := List.inj_on_of_nodup_map (scope.nodup_groupKeys_collect _ _)
    hgroup hgroup' (PathSegment.key.inj (List.cons.inj hkey).1)
  exact hcall

end Account.Exact

namespace Prepared

variable {prepared : Prepared ω σ} {run : Run ω σ} {courses : List (Course ω)}

theorem Follows.perm_events (h : prepared.Follows run courses) :
    run.events.Perm ((courses.flatMap Course.timeline).map Prod.snd) := by
  rw [Run.events, ← map_snd_numberRounds 1]
  exact h.timeline.map Prod.snd

/-- The calls of a run are those of its courses. -/
theorem Follows.perm_invocations (h : prepared.Follows run courses) :
    (run.events.filterMap Event.invocation?).Perm (courses.flatMap Course.calls) := by
  have hcalls : ((courses.flatMap Course.timeline).map Prod.snd).filterMap Event.invocation? =
      courses.flatMap Course.calls := by
    rw [List.filterMap_map, List.filterMap_flatMap]
    exact List.flatMap_congr fun course _ => course.invocations_timeline
  exact hcalls ▸ h.perm_events.filterMap _

end Prepared

namespace Schema

variable {schema : Schema ω σ} {request : Request ω} {operation : Operation}
  {root : ObjectType ω σ} {prepared : Prepared ω σ}

/-- The calls of a run that responds are those for its account. -/
theorem Prepares.exists_callsResolvers (hp : schema.Prepares request operation root prepared)
    {limit : Nat} {state : σ} {response : Response}
    (h : (prepared.runOn limit prepared.start state).ending = .responded response) :
    ∃ account, prepared.scope.WorkAccounts
        (prepared.runOn limit prepared.start state).events prepared.start account ∧
      response = account.outcome.toResponse ∧
      account.CallsResolvers prepared.scope operation.kind operation.selections
        ((prepared.runOn limit prepared.start state).events.filterMap Event.invocation?) := by
  obtain ⟨courses, hfollows, _⟩ := Prepared.follows_runOn hp.start_eq limit state
  obtain ⟨work, o, hwork, ho, rfl⟩ := Prepared.runOn_outcome h
  obtain ⟨work', hwork', hunfolds⟩ := hfollows.unfolds
  obtain rfl : work = work' := Option.some.inj (hwork.symm.trans hwork')
  generalize prepared.runOn limit prepared.start state = run at hfollows hunfolds ⊢
  rw [hp.start_eq] at hunfolds ⊢
  have hperm := hfollows.perm_invocations
  have hlog : ∀ e ∈ courses.flatMap Course.timeline, e.2 ∈ run.events := fun e he =>
    hfollows.perm_events.mem_iff.mpr (List.mem_map_of_mem he)
  obtain ⟨parts, groups, ha, rfl, hgroups, hcalls, hquery, hmutation⟩ := hunfolds.exists_calls ho hlog
  refine ⟨_, ha, rfl, ?_⟩
  obtain ⟨_, _, hexact⟩ := ha.exact
  have hmem : ∀ info, info ∈ run.events.filterMap Event.invocation? ↔
      (Account.branch (.object ⟨root, request.root, []⟩) parts).Invokes prepared.scope
        operation.selections info := by
    intro info
    rw [hperm.mem_iff]
    exact hcalls.mem_iff_invokes hgroups info
  have hdistinct : ((run.events.filterMap Event.invocation?).map ResolveInfo.path).Nodup :=
    (hperm.map ResolveInfo.path).nodup_iff.mpr hunfolds.nested.nodup
  refine ⟨hdistinct, ?_, fun info hinfo => (hmem info).mp hinfo, ?_, ?_⟩
  · intro opened hopened group hgroup
    refine filter_eq_toList hdistinct ?_
    intro info
    constructor
    · intro hcall
      exact ⟨(hmem info).mpr ⟨opened, group, hopened, hgroup, hcall⟩, Opened.path_of_call? hcall⟩
    · rintro ⟨hinfo, hpath⟩
      exact hexact.call?_of_invokes hopened hgroup ((hmem info).mp hinfo) hpath
  · intro opened hopened hkind
    rcases hcalls.eq_or_full hgroups hopened with rfl | hfull
    · have hne : operation.kind ≠ .mutation := fun heq => hkind heq rfl
      rw [hquery hne] at hcalls
      exact hcalls.object.full _ hopened
    · exact hfull
  · intro hkind opened hopened hpath
    obtain rfl : opened = ⟨⟨root, request.root, []⟩, operation.selections, parts⟩ :=
      hexact.opens_unique hopened .here hpath
    obtain ⟨hfirst, hlast, hend⟩ := (hmutation hkind).inOrder
    rw [Scope.fieldChildren, Scope.segments_fieldChildren] at hfirst hend
    exact ⟨hfirst, hlast, hend⟩

/-- Every resolver is called once for each place that an execution reaches, if the arguments of its
field are in order, and never otherwise. -/
theorem execute_callsResolvers {state : σ} {response : Response}
    (h : (schema.execute request state).ending = .responded response) :
    ∃ operation root prepared account, schema.Prepares request operation root prepared ∧
      prepared.scope.WorkAccounts (schema.execute request state).events prepared.start account ∧
      response = account.outcome.toResponse ∧
      account.CallsResolvers prepared.scope operation.kind operation.selections
        ((schema.execute request state).events.filterMap Event.invocation?) := by
  generalize hrun : schema.execute request state = run at h
  rw [execute] at hrun
  generalize request.rounds = limit at hrun
  cases hprepare : schema.prepare request with
  | error reason =>
      rw [hprepare] at hrun
      cases limit with
      | zero => simp [← hrun] at h
      | succ limit => simp [← hrun] at h
  | ok prepared =>
      rw [hprepare] at hrun
      cases limit with
      | zero => simp [← hrun] at h
      | succ limit =>
          subst hrun
          obtain ⟨operation, root, hp⟩ := schema.exists_of_prepare hprepare
          obtain ⟨account, ha, hresponse, hcalls⟩ := hp.exists_callsResolvers h
          exact ⟨operation, root, prepared, account, hp, ha, hresponse, hcalls⟩

end Schema

/-! ## A bank -/

/-- Answers in the same way whenever it is called. -/
def Resolver.always (answer : Except ResolverFailure (Resolved Unit)) : Resolver Unit Unit where
  suspension := none
  answer := fun _ state => (answer, state)

def bankMutation : ObjectType Unit Unit where
  name := "Mutation"
  fields := [
    ("deposit", {
      name := "deposit", type := .named "Int", resolver? := some (.always (.ok (.leaf (.int 1))))
      arguments := [("amount", { type := .nonNullNamed "Int" })] }),
    ("account", {
      name := "account", type := .named "Account"
      resolver? := some (.always (.ok (.object (.host ())))) }),
    ("audit", {
      name := "audit", type := .nonNullNamed "Int"
      resolver? := some (.always (.error { message := "not today" })) })]

def bankAccount : ObjectType Unit Unit where
  name := "Account"
  fields := [
    ("balance", {
      name := "balance", type := .named "Int", resolver? := some (.always (.ok (.leaf (.int 7)))) })]

/-- A bank whose audits fail. -/
def bankSchema : Schema Unit Unit where
  queryType := "Query"
  mutationType := some "Mutation"
  types := BuiltIn.scalars.map (fun t => (t.name, .scalar t)) ++
    [("Mutation", .object bankMutation), ("Account", .object bankAccount)]
  possible := []

/-- A deposit of nothing, a balance that is asked for twice, an audit, and the account once more
under another key. -/
def bankRequest : Request Unit where
  document := ⟨[.plain .mutation [.plain "deposit" [],
    .plain "account" [.plain "balance" [], .plain "balance" []], .plain "audit" [],
    .field ⟨some "again", "account", [], [], [.plain "balance" []], none⟩]], []⟩
  root := .json []
  depth := 2
  rounds := 1

def bankResponse : Response where
  errors := [
    { message := "argument `amount` of required type Int! was not provided", path := [.key "deposit"] },
    { message := "not today", path := [.key "audit"] }]
  data := none

/-- The deposit is not called, the balance is called once, and after the audit nothing is called. -/
theorem bankResponse_callsResolvers :
    (bankSchema.execute bankRequest ()).ending = .responded bankResponse ∧
    ((bankSchema.execute bankRequest ()).events.filterMap Event.invocation?).map ResolveInfo.path =
      [[.key "account"], [.key "account", .key "balance"], [.key "audit"]] ∧
    ∃ operation root prepared account, bankSchema.Prepares bankRequest operation root prepared ∧
      prepared.scope.WorkAccounts (bankSchema.execute bankRequest ()).events prepared.start account ∧
      bankResponse = account.outcome.toResponse ∧
      account.CallsResolvers prepared.scope operation.kind operation.selections
        ((bankSchema.execute bankRequest ()).events.filterMap Event.invocation?) := by
  have run : (bankSchema.execute bankRequest ()).ending = .responded bankResponse := by
    decide +kernel
  exact ⟨run, by decide +kernel, Schema.execute_callsResolvers run⟩

end GraphQLEngine
