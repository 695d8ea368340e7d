/-
The objects that an account opens, and the fields that its parts are for.

`Account.Opens` finds the objects that were completed within an account, each
with the selections that were merged for it.  `Account.Exact` says that every
part stands at the place of one field of its object, or of one item of its
list, in the order of collection or of indices, and that errors carry the place
and the locations of their field.  Accounts of an execution are exact
(`WorkAccounts.exact`), and an exact account opens at most one object at a place
(`Exact.opens_unique`).

Which resolvers were called on the way is left to Proofs/Invocations.
-/
import GraphQLEngine.Proofs.Account
import GraphQLEngine.Proofs.Completion
import Mathlib.Data.List.Nodup

namespace GraphQLEngine

variable {ω σ : Type}

/-! ## Paths -/

/-- Neither of two places is the other one, or below it. -/
def Path.Apart (p q : Path) : Prop :=
  ¬ p <+: q ∧ ¬ q <+: p

theorem Path.not_append_prefix (path : Path) (segment : PathSegment) :
    ¬ path ++ [segment] <+: path := by
  intro h
  have hlen := h.length_le
  rw [List.length_append, List.length_singleton] at hlen
  omega

theorem Path.eq_of_append_prefix {path long : Path} {segment segment' : PathSegment}
    (h : path ++ [segment] <+: long) (h' : path ++ [segment'] <+: long) : segment = segment' := by
  have hpre := List.prefix_of_prefix_length_le h h' (by simp)
  simpa [List.prefix_append_right_inj] using hpre

theorem Path.not_prefix_of_ne {path rest rest' : Path} {s s' : PathSegment} (h : s ≠ s') :
    ¬ path ++ s :: rest <+: path ++ s' :: rest' := by
  rw [List.prefix_append_right_inj, List.cons_prefix_cons]
  exact fun hpre => h hpre.1

/-- What is at or below two places that part at a segment is apart. -/
theorem Path.Apart.of_ne {path p q : Path} {s s' : PathSegment} (h : s ≠ s')
    (hp : path ++ [s] <+: p) (hq : path ++ [s'] <+: q) : p.Apart q := by
  obtain ⟨rest, rfl⟩ := hp
  obtain ⟨rest', rfl⟩ := hq
  rw [Path.Apart, List.append_assoc, List.append_assoc]
  exact ⟨Path.not_prefix_of_ne h, Path.not_prefix_of_ne (Ne.symm h)⟩

/-! ## Opened objects -/

/-- An object that was completed, with the selections made on it and the accounts of its fields. -/
structure Opened (ω σ : Type) where
  site : Site ω σ
  selections : List Selection
  parts : List (Placed ω σ)

/-- The groups that are collected for an object. -/
def Opened.groups (scope : Scope ω σ) (opened : Opened ω σ) : List FieldGroup :=
  scope.collect opened.site.objectType.name opened.selections

/-- An object that was completed within an account, where the given selections are made. -/
inductive Account.Opens (scope : Scope ω σ) :
    List Selection → Account ω σ → Opened ω σ → Prop
  | here {selections : List Selection} {site : Site ω σ} {parts : List (Placed ω σ)} :
      Opens scope selections (.branch (.object site) parts) ⟨site, selections, parts⟩
  | answered {selections : List Selection} {answer : Except ResolverFailure (Resolved ω)}
      {account : Account ω σ} {opened : Opened ω σ} :
      Opens scope selections account opened → Opens scope selections (.answered answer account) opened
  /-- Below a field, the selections of its group are made. -/
  | field {selections : List Selection} {site : Site ω σ} {parts : List (Placed ω σ)}
      {part : Placed ω σ} {group : FieldGroup} {opened : Opened ω σ} :
      part ∈ parts → group ∈ scope.collect site.objectType.name selections →
      part.segment = .key group.key → Opens scope group.selections part.account opened →
      Opens scope selections (.branch (.object site) parts) opened
  | item {selections : List Selection} {parts : List (Placed ω σ)} {part : Placed ω σ}
      {opened : Opened ω σ} :
      part ∈ parts → Opens scope selections part.account opened →
      Opens scope selections (.branch .list parts) opened

/-! ## Exact accounts -/

/-- An account at a place, of a field with these sub-selections and locations or of an item of its
list, all of whose parts and errors are where they belong. -/
inductive Account.Exact (scope : Scope ω σ) :
    List Selection → List Location → Path → Account ω σ → Prop
  | value {selections : List Selection} {locations : List Location} {path : Path} (json : Json) :
      Exact scope selections locations path (.value json)
  | failed {selections : List Selection} {locations : List Location} {path : Path}
      {error : ResponseError} : error.locations = locations → error.path = path →
      Exact scope selections locations path (.failed error)
  | answered {selections : List Selection} {locations : List Location} {path : Path}
      {answer : Except ResolverFailure (Resolved ω)} {account : Account ω σ} :
      Exact scope selections locations path account →
      Exact scope selections locations path (.answered answer account)
  /-- The parts of an object belong to some of its groups, in their order. -/
  | object {selections : List Selection} {locations : List Location} {site : Site ω σ}
      {groups : List FieldGroup} {parts : List (Placed ω σ)} :
      groups.Sublist (scope.collect site.objectType.name selections) →
      parts.map Placed.segment = (groupKeys groups).map .key →
      (∀ part ∈ parts, ∀ group ∈ groups, part.segment = .key group.key →
        Exact scope group.selections group.locations (site.fieldPath group) part.account) →
      Exact scope selections locations site.path (.branch (.object site) parts)
  | list {selections : List Selection} {locations : List Location} {path : Path}
      {parts : List (Placed ω σ)} :
      parts.map Placed.segment = (List.range parts.length).map .index →
      (∀ part ∈ parts, Exact scope selections locations (path ++ [part.segment]) part.account) →
      Exact scope selections locations path (.branch .list parts)

/-- A part of an object belongs to one of the groups that the parts are for. -/
theorem Placed.exists_group {groups : List FieldGroup} {parts : List (Placed ω σ)}
    (h : (parts.map Placed.segment).Sublist ((groupKeys groups).map .key)) {part : Placed ω σ}
    (hpart : part ∈ parts) : ∃ group ∈ groups, part.segment = .key group.key := by
  obtain ⟨key, hkey, heq⟩ := List.mem_map.mp (h.subset (List.mem_map_of_mem hpart))
  obtain ⟨group, hgroup, rfl⟩ := List.mem_map.mp hkey
  exact ⟨group, hgroup, heq.symm⟩

/-- Where the fields that a job is for stand in the text. -/
def Job.locations : Job ω σ → List Location
  | .field _ group _ => group.locations
  | .item group _ _ _ => group.locations

namespace Scope

variable {scope : Scope ω σ} {log : List (Event ω)}

/-- An object is exact if the accounts of the jobs below are. -/
theorem AccountsAll.exact_object {site : Site ω σ} {selections : List Selection}
    {locations : List Location} {groups : List FieldGroup} {parts : List (Placed ω σ)}
    (hgroups : groups.Sublist (scope.collect site.objectType.name selections))
    (ha : scope.AccountsAll log (groups.map (fieldChild site)) parts)
    (jobs : ∀ part ∈ parts, ∀ job, scope.Accounts log (.unstarted job) part.account →
      part.account.Exact scope job.selections job.locations job.path) :
    (Account.branch (.object site) parts).Exact scope selections locations site.path := by
  have hnodup : (groupKeys groups).Nodup :=
    (scope.nodup_groupKeys_collect site.objectType.name selections).sublist (hgroups.map _)
  have hanswered : (groups.filter site.objectType.answers).Sublist groups := List.filter_sublist
  refine .object (hanswered.trans hgroups) (ha.segments.trans (segments_fieldChildren site groups)) ?_
  intro part hpart group hgroup hkey
  obtain ⟨task, hchild, htask⟩ := ha.exists_task part hpart
  obtain ⟨group', hgroup', hchild⟩ := List.mem_map.mp hchild
  have hsame : group' = group := List.inj_on_of_nodup_map hnodup hgroup' (hanswered.subset hgroup)
    (PathSegment.key.inj ((segment_of_fieldChild hchild).symm.trans hkey))
  subst hsame
  obtain ⟨position, account⟩ := part
  by_cases hn : group'.first.name = "__typename"
  · rw [fieldChild_typename hn] at hchild
    cases hchild
    cases htask
    exact .value _
  · match hd : site.objectType.fields.get? group'.first.name with
    | none =>
        rw [fieldChild_absent hn hd] at hchild
        cases hchild
    | some definition =>
        rw [fieldChild_field hn hd] at hchild
        cases hchild
        exact jobs _ hpart _ htask

/-- A list is exact if the accounts of its items are. -/
theorem AccountsAll.exact_list {group : FieldGroup} {item : TypeRef} {path : Path}
    {items : List (Except ResolverFailure (Resolved ω))} {parts : List (Placed ω σ)}
    (ha : scope.AccountsAll log (itemChildren group item path 0 items) parts)
    (jobs : ∀ part ∈ parts, ∀ job, scope.Accounts log (.unstarted job) part.account →
      part.account.Exact scope job.selections job.locations job.path) :
    (Account.branch .list parts).Exact scope group.selections group.locations path := by
  have hfits := fits_itemChildren (σ := σ) group item path items
  rw [← ha.segments] at hfits
  refine .list ?_ ?_
  · rw [← List.length_map (f := Placed.segment)]
    exact hfits
  · intro part hpart
    obtain ⟨task, hchild, htask⟩ := ha.exists_task part hpart
    obtain ⟨i, answer, hchild⟩ := exists_of_mem_itemChildren hchild
    obtain ⟨position, account⟩ := part
    cases hchild
    exact jobs _ hpart _ htask

/-- An account of an answer is exact, if those of the jobs below are. -/
theorem Accounts.exact_completed {account : Account ω σ} {group : FieldGroup} {type : TypeRef}
    {path : Path} {answer : Except ResolverFailure (Resolved ω)}
    (jobs : ∀ shape parts, account = .branch shape parts → ∀ part ∈ parts, ∀ job,
      scope.Accounts log (.unstarted job) part.account →
        part.account.Exact scope job.selections job.locations job.path)
    (ha : scope.Accounts log (scope.completeAnswer group type path answer) account) :
    account.Exact scope group.selections group.locations path := by
  have hc := scope.completes_completeAnswer group type path answer
  generalize scope.completeAnswer group type path answer = task at ha hc
  cases hc with
  | failed fault =>
      cases ha
      exact .failed rfl rfl
  | null _ =>
      cases ha
      exact .value _
  | scalar _ _ _ _ =>
      cases ha
      exact .value _
  | enum _ _ _ =>
      cases ha
      exact .value _
  | object _ _ _ =>
      cases ha with
      | branch ha => exact ha.exact_object (List.Sublist.refl _) (jobs _ _ rfl)
  | list _ _ =>
      cases ha with
      | branch ha => exact ha.exact_list (jobs _ _ rfl)

/-- Accounts of an answer, and of a job, are exact. -/
theorem Accounts.exact (account : Account ω σ) :
    (∀ group type path answer,
      scope.Accounts log (scope.completeAnswer group type path answer) account →
        account.Exact scope group.selections group.locations path) ∧
    ∀ job, scope.Accounts log (.unstarted job) account →
      account.Exact scope job.selections job.locations job.path := by
  induction account with
  | value json =>
      constructor
      · intro group type path answer ha
        exact ha.exact_completed fun _ _ heq => by cases heq
      · intro job ha
        cases ha
  | failed error =>
      constructor
      · intro group type path answer ha
        exact ha.exact_completed fun _ _ heq => by cases heq
      · intro job ha
        cases ha with
        | refused _ => exact .failed rfl rfl
  | answered answer account ih =>
      constructor
      · intro group type path answer' ha
        exact ha.exact_completed fun _ _ heq => by cases heq
      · intro job ha
        cases ha with
        | item ha => exact .answered (ih.1 _ _ _ _ ha)
        | field _ _ ha => exact .answered (ih.1 _ _ _ _ ha)
  | branch shape parts ih =>
      constructor
      · intro group type path answer ha
        refine ha.exact_completed ?_
        intro shape' parts' heq part hpart
        cases heq
        exact (ih part hpart).2
      · intro job ha
        cases ha

/-- Accounts of an operation open its root object, and are exact. -/
theorem WorkAccounts.exact {kind : OperationKind} {site : Site ω σ} {selections : List Selection}
    {account : Account ω σ}
    (ha : scope.WorkAccounts log (scope.operationWork kind site selections) account) :
    ∃ parts, account = .branch (.object site) parts ∧
      account.Exact scope selections [] site.path := by
  have jobs : ∀ {parts : List (Placed ω σ)}, ∀ part ∈ parts, ∀ job,
      scope.Accounts log (.unstarted job) part.account →
        part.account.Exact scope job.selections job.locations job.path :=
    fun part _ => (Accounts.exact part.account).2
  have query : scope.WorkAccounts log (.query (scope.objectTask site selections)) account →
      ∃ parts, account = .branch (.object site) parts ∧
        account.Exact scope selections [] site.path := by
    intro hquery
    cases hquery with
    | query htask =>
        cases htask with
        | branch hparts => exact ⟨_, rfl, hparts.exact_object (List.Sublist.refl _) jobs⟩
  match kind with
  | .query => exact query ha
  | .subscription => exact query ha
  | .mutation =>
      cases ha with
      | mutation ha =>
          obtain ⟨n, hn⟩ := ha.exists_take
          rw [fieldChildren, ← List.map_take] at hn
          exact ⟨_, rfl, hn.exact_object (List.take_sublist n _) jobs⟩

end Scope

/-! ## Objects of exact accounts -/

namespace Account.Exact

variable {scope : Scope ω σ} {selections : List Selection} {locations : List Location} {path : Path}
  {account : Account ω σ} {site : Site ω σ} {parts : List (Placed ω σ)}

theorem path_eq (h : (Account.branch (.object site) parts).Exact scope selections locations path) :
    site.path = path := by
  cases h
  rfl

/-- The parts of an object follow the order of collection. -/
theorem sublist (h : (Account.branch (.object site) parts).Exact scope selections locations path) :
    (parts.map Placed.segment).Sublist
      ((groupKeys (scope.collect site.objectType.name selections)).map .key) := by
  cases h with
  | object hsub hsegments _ =>
      rw [hsegments]
      exact (hsub.map _).map _

theorem nodup (h : (Account.branch (.object site) parts).Exact scope selections locations path) :
    (parts.map Placed.segment).Nodup :=
  ((scope.nodup_groupKeys_collect site.objectType.name selections).map
    fun _ _ => PathSegment.key.inj).sublist h.sublist

theorem field (h : (Account.branch (.object site) parts).Exact scope selections locations path)
    {part : Placed ω σ} (hpart : part ∈ parts) {group : FieldGroup}
    (hgroup : group ∈ scope.collect site.objectType.name selections)
    (hkey : part.segment = .key group.key) :
    part.account.Exact scope group.selections group.locations (site.fieldPath group) := by
  cases h with
  | @object _ _ _ groups _ hsub hsegments hparts =>
      obtain ⟨group', hgroup', hkey'⟩ :=
        Placed.exists_group (by rw [hsegments]) hpart
      have hsame : group' = group := List.inj_on_of_nodup_map
        (scope.nodup_groupKeys_collect _ _) (hsub.subset hgroup') hgroup
        (PathSegment.key.inj (hkey'.symm.trans hkey))
      exact hparts part hpart group (hsame ▸ hgroup') hkey

/-- A list's parts have distinct segments too. -/
theorem nodup_list (h : (Account.branch .list parts).Exact scope selections locations path) :
    (parts.map Placed.segment).Nodup := by
  cases h with
  | list hsegments _ =>
      rw [hsegments]
      exact List.nodup_range.map fun _ _ => PathSegment.index.inj

theorem item (h : (Account.branch .list parts).Exact scope selections locations path)
    {part : Placed ω σ} (hpart : part ∈ parts) :
    part.account.Exact scope selections locations (path ++ [part.segment]) := by
  cases h with
  | list _ hparts => exact hparts part hpart

/-- Objects stand at the place of an exact account, or below. -/
theorem prefix_of_opens {opened : Opened ω σ} (ho : account.Opens scope selections opened) :
    ∀ {locations : List Location} {path : Path}, account.Exact scope selections locations path →
      path <+: opened.site.path := by
  induction ho with
  | here =>
      intro _ _ h
      exact h.path_eq ▸ List.prefix_rfl
  | answered _ ih =>
      intro _ _ h
      cases h with
      | answered h => exact ih h
  | field hpart hgroup hkey _ ih =>
      intro _ _ h
      rw [← h.path_eq]
      exact (List.prefix_append _ _).trans (ih (h.field hpart hgroup hkey))
  | item hpart _ ih =>
      intro _ _ h
      exact (List.prefix_append _ _).trans (ih (h.item hpart))

/-- At most one object was opened at a place. -/
theorem opens_unique {opened : Opened ω σ} (ho : account.Opens scope selections opened) :
    ∀ {opened' : Opened ω σ} {locations : List Location} {path : Path},
      account.Exact scope selections locations path → account.Opens scope selections opened' →
      opened.site.path = opened'.site.path → opened = opened' := by
  induction ho with
  | @here _ site _ =>
      intro opened' _ _ h ho' hpath
      cases ho' with
      | here => rfl
      | field hpart hgroup hkey ho' =>
          have hpre := prefix_of_opens ho' (h.field hpart hgroup hkey)
          rw [← hpath] at hpre
          exact absurd hpre (Path.not_append_prefix _ _)
  | answered _ ih =>
      intro opened' _ _ h ho' hpath
      cases h with
      | answered h =>
          cases ho' with
          | answered ho' => exact ih h ho' hpath
  | field hpart hgroup hkey ho ih =>
      intro opened' _ _ h ho' hpath
      have hbelow := h.field hpart hgroup hkey
      have hpre := prefix_of_opens ho hbelow
      cases ho' with
      | here =>
          rw [hpath] at hpre
          exact absurd hpre (Path.not_append_prefix _ _)
      | field hpart' hgroup' hkey' ho' =>
          have hpre' := prefix_of_opens ho' (h.field hpart' hgroup' hkey')
          rw [← hpath] at hpre'
          have hsegment := Path.eq_of_append_prefix hpre hpre'
          obtain rfl := List.inj_on_of_nodup_map h.nodup hpart hpart'
            (hkey.trans (hsegment.trans hkey'.symm))
          obtain rfl := List.inj_on_of_nodup_map (scope.nodup_groupKeys_collect _ _) hgroup hgroup'
            (PathSegment.key.inj hsegment)
          exact ih hbelow ho' hpath
  | item hpart ho ih =>
      intro opened' _ _ h ho' hpath
      cases ho' with
      | item hpart' ho' =>
          have hpre := prefix_of_opens ho (h.item hpart)
          have hpre' := prefix_of_opens ho' (h.item hpart')
          rw [← hpath] at hpre'
          obtain rfl := List.inj_on_of_nodup_map h.nodup_list hpart hpart'
            (Path.eq_of_append_prefix hpre hpre')
          exact ih (h.item hpart) ho' hpath

end Account.Exact

end GraphQLEngine
