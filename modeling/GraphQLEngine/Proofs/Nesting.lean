/-
Where work unfolds: the places of resolver calls, and the jobs that are left.

What completion leaves stands at a place, and what it unfolds to stays there or
below (`Scope.Unfolds.nested`, `Scope.UnfoldsInTurn.nested`).  A property of
jobs that goes on to the jobs below them holds of all work that is left
(`Scope.Unfolds.holds`).  Two such properties bound how far work can go: the
suspensions of the jobs bound its course (`Scope.Unfolds.span_le_mul`), and
work that is cut off stands as deep as the levels reach
(`Scope.Unfolds.exists_holds_of_cut`).
-/
import GraphQLEngine.Proofs.Eventual
import GraphQLEngine.Proofs.RunCourse

namespace GraphQLEngine

variable {ω σ : Type}

/-! ## Places of tasks -/

/-- A task as completion leaves it at a place. -/
inductive Task.Completed (path : Path) : Task ω σ → Prop
  | value (json : Json) : Completed path (.value json)
  | failed (error : ResponseError) : Completed path (.failed error)
  | branch {shape : Shape ω σ} {turns : Turns} {children : List (Child ω σ)} :
      (children.filterMap Child.segment?).Nodup → (∀ child ∈ children, child.Fresh path) →
      Completed path (.branch shape turns children)

/-- A task at a place that has not begun, or as completion leaves it. -/
inductive Task.At (path : Path) : Task ω σ → Prop
  | job {job : Job ω σ} : job.path = path → At path (.unstarted job)
  | completed {t : Task ω σ} : t.Completed path → At path t

theorem Task.At.job_path {path : Path} {job : Job ω σ} (h : (Task.unstarted job).At path) :
    job.path = path := by
  cases h with
  | job hpath => exact hpath
  | completed hc => cases hc

theorem Child.Fresh.task_at {path : Path} {position : Position} {t : Task ω σ}
    (h : (Child.mk position t).Fresh path) : t.At (path ++ [position.segment]) := by
  cases h with
  | typename key name => exact .completed (.value _)
  | job hpath => exact .job hpath

namespace Scope

theorem completed_objectTask (scope : Scope ω σ) (site : Site ω σ) (selections : List Selection) :
    (scope.objectTask site selections).Completed site.path :=
  .branch (scope.fits_fieldChildren site selections).nodup (scope.fresh_fieldChildren site selections)

theorem completed_completeAnswer (scope : Scope ω σ) (group : FieldGroup) (type : TypeRef)
    (path : Path) (answer : Except ResolverFailure (Resolved ω)) :
    (scope.completeAnswer group type path answer).Completed path := by
  have hc := scope.completes_completeAnswer group type path answer
  generalize scope.completeAnswer group type path answer = task at hc
  cases hc with
  | failed fault => exact .failed _
  | null _ => exact .value _
  | scalar _ _ _ _ => exact .value _
  | enum _ _ _ => exact .value _
  | @object _ value objectType _ _ _ =>
      exact scope.completed_objectTask ⟨objectType, value, path⟩ group.selections
  | list _ _ =>
      exact .branch (fits_itemChildren (σ := σ) _ _ _ _).nodup (fresh_itemChildren _ _ _ _)

end Scope

/-! ## Places of calls -/

theorem Course.Nested.mono {path path' : Path} {course : Course ω} (h : course.Nested path)
    (hpath : path' <+: path) : course.Nested path' := by
  induction h with
  | idle => exact .idle
  | call hinfo hnext hbelow _ => exact .call (hpath.trans hinfo) hnext hbelow
  | suspended hinfo => exact .suspended (hpath.trans hinfo)
  | together _ _ hapart ih₁ ih₂ => exact .together (ih₁ hpath) (ih₂ hpath) hapart

namespace Scope

variable {scope : Scope ω σ} {now : Nat}

mutual

/-- Calls stand at the place of the task that unfolds or below, and below it if it was completed. -/
theorem Unfolds.nested : ∀ {levels start : Nat} {t t' : Task ω σ} {course : Course ω} {path : Path},
    scope.Unfolds now levels start t t' course → t.At path →
    course.Nested path ∧ (t.Completed path → ∀ info ∈ course.calls, info.path ≠ path)
  | _, _, _, _, _, _, .value _, _ => ⟨.idle, fun _ _ h => by cases h⟩
  | _, _, _, _, _, _, .failed _, _ => ⟨.idle, fun _ _ h => by cases h⟩
  | _, _, _, _, _, _, .unbegun _, _ => ⟨.idle, fun _ _ h => by cases h⟩
  | _, _, _, _, _, _, .item h, hat => by
      obtain rfl := hat.job_path
      have hc := h.nested (.completed (scope.completed_completeAnswer _ _ _ _))
      exact ⟨hc.1, fun hc => by cases hc⟩
  | _, _, _, _, _, _, .refused _, _ => ⟨.idle, fun _ _ h => by cases h⟩
  | _, _, _, _, _, _, .read _ _ h, hat => by
      obtain rfl := hat.job_path
      have hc := h.nested (.completed (scope.completed_completeAnswer _ _ _ _))
      exact ⟨hc.1, fun hc => by cases hc⟩
  | _, _, _, _, _, _, .called _ _ _ _ h, hat => by
      obtain rfl := hat.job_path
      obtain ⟨hnext, hbelow⟩ := h.nested (.completed (scope.completed_completeAnswer _ _ _ _))
      have hbelow' := hbelow (scope.completed_completeAnswer _ _ _ _)
      exact ⟨.call List.prefix_rfl hnext hbelow', fun hc => by cases hc⟩
  | _, _, _, _, _, _, .waiting _ _ _ _, hat => by
      obtain rfl := hat.job_path
      exact ⟨.suspended List.prefix_rfl, fun hc => by cases hc⟩
  | _, _, _, _, _, path, .branch _ hs, .completed (.branch hnodup hfresh) => by
      obtain ⟨hnested, hbelow⟩ := hs.nested hnodup hfresh
      refine ⟨hnested, ?_⟩
      rintro _ info hinfo heq
      obtain ⟨segment, _, hunder⟩ := hbelow info hinfo
      exact Path.not_append_prefix path segment (heq ▸ hunder)

theorem UnfoldsAll.nested : ∀ {levels start : Nat} {children children' : List (Child ω σ)}
    {course : Course ω} {path : Path}, scope.UnfoldsAll now levels start children children' course →
    (children.filterMap Child.segment?).Nodup → (∀ child ∈ children, child.Fresh path) →
    course.Nested path ∧ ∀ info ∈ course.calls,
      ∃ segment ∈ children.filterMap Child.segment?, path ++ [segment] <+: info.path
  | _, _, _, _, _, _, .nil, _, _ => ⟨.idle, fun _ h => by cases h⟩
  | _, _, _, _, _, _, .absent hs, hnodup, hfresh =>
      hs.nested hnodup (List.forall_mem_cons.mp hfresh).2
  | _, _, _, _, _, _, .cons h hs, hnodup, hfresh => by
      obtain ⟨hchild, hrest⟩ := List.forall_mem_cons.mp hfresh
      obtain ⟨hsegment, hnodup⟩ := List.nodup_cons.mp hnodup
      have hfirst := (h.nested hchild.task_at).1
      obtain ⟨hlater, hbelow⟩ := hs.nested hnodup hrest
      refine ⟨.together (hfirst.mono (List.prefix_append _ _)) hlater ?_, ?_⟩
      · intro i hi j hj
        obtain ⟨segment, hmem, hunder⟩ := hbelow j hj
        refine Path.Apart.of_ne ?_ (hfirst.prefix_of_call i hi) hunder
        rintro rfl
        exact hsegment hmem
      · intro info hinfo
        rcases List.mem_append.mp hinfo with hinfo | hinfo
        · exact ⟨_, List.mem_cons_self, hfirst.prefix_of_call info hinfo⟩
        · obtain ⟨segment, hmem, hunder⟩ := hbelow info hinfo
          exact ⟨segment, List.mem_cons_of_mem _ hmem, hunder⟩

end

end Scope

/-- Courses at a place whose calls are apart from each other. -/
structure Course.NestedAll (path : Path) (courses : List (Course ω)) : Prop where
  nested : ∀ course ∈ courses, course.Nested path
  apart : courses.Pairwise fun c c' => ∀ i ∈ c.calls, ∀ j ∈ c'.calls, i.path.Apart j.path

/-- No place is called at twice. -/
theorem Course.NestedAll.nodup {path : Path} {courses : List (Course ω)} (h : NestedAll path courses) :
    ((courses.flatMap calls).map ResolveInfo.path).Nodup := by
  rw [List.map_flatMap, List.nodup_flatMap]
  refine ⟨fun course hmem => (h.nested course hmem).nodup, ?_⟩
  refine h.apart.imp ?_
  intro c c' hapart p hp hp'
  obtain ⟨i, hi, rfl⟩ := List.mem_map.mp hp
  obtain ⟨j, hj, heq⟩ := List.mem_map.mp hp'
  exact (hapart i hi j hj).1 (heq ▸ List.prefix_rfl)

namespace Scope

variable {scope : Scope ω σ} {now levels : Nat}

theorem UnfoldsInTurn.nested {start : Nat} {fields fields' : List (Child ω σ)}
    {courses : List (Course ω)} {path : Path}
    (h : scope.UnfoldsInTurn now levels start fields fields' courses)
    (hnodup : (fields.filterMap Child.segment?).Nodup) (hfresh : ∀ child ∈ fields, child.Fresh path) :
    Course.NestedAll path courses ∧ ∀ course ∈ courses, ∀ info ∈ course.calls,
      ∃ segment ∈ fields.filterMap Child.segment?, path ++ [segment] <+: info.path := by
  have single : ∀ {now start : Nat} {position : Position} {t t' : Task ω σ}
      {later : List (Child ω σ)} {course : Course ω},
      (∀ child ∈ Child.mk position t :: later, child.Fresh path) →
      scope.Unfolds now levels start t t' course → course.Nested (path ++ [position.segment]) := by
    intro now start position t t' later course hfresh h
    exact (h.nested (hfresh _ List.mem_cons_self).task_at).1
  induction h with
  | fresh _ => exact ⟨⟨nofun, .nil⟩, nofun⟩
  | nil _ => exact ⟨⟨nofun, .nil⟩, nofun⟩
  | absent _ ih => exact ih hnodup (List.forall_mem_cons.mp hfresh).2
  | wait _ h _ =>
      have hfirst := single hfresh h
      refine ⟨⟨?_, List.pairwise_singleton _ _⟩, ?_⟩
      · exact List.forall_mem_singleton.mpr (hfirst.mono (List.prefix_append _ _))
      · exact List.forall_mem_singleton.mpr fun info hinfo =>
          ⟨_, List.mem_cons_self, hfirst.prefix_of_call info hinfo⟩
  | stop _ h _ _ _ =>
      have hfirst := single hfresh h
      refine ⟨⟨?_, List.pairwise_singleton _ _⟩, ?_⟩
      · exact List.forall_mem_singleton.mpr (hfirst.mono (List.prefix_append _ _))
      · exact List.forall_mem_singleton.mpr fun info hinfo =>
          ⟨_, List.mem_cons_self, hfirst.prefix_of_call info hinfo⟩
  | next _ h _ _ _ _ ih =>
      have hfirst := single hfresh h
      obtain ⟨hsegment, hnodup⟩ := List.nodup_cons.mp hnodup
      obtain ⟨hlater, hbelow⟩ := ih hnodup (List.forall_mem_cons.mp hfresh).2
      refine ⟨⟨?_, List.pairwise_cons.mpr ⟨?_, hlater.apart⟩⟩, ?_⟩
      · exact List.forall_mem_cons.mpr ⟨hfirst.mono (List.prefix_append _ _), hlater.nested⟩
      · intro course hcourse i hi j hj
        obtain ⟨segment, hmem, hunder⟩ := hbelow course hcourse j hj
        refine Path.Apart.of_ne ?_ (hfirst.prefix_of_call i hi) hunder
        rintro rfl
        exact hsegment hmem
      · refine List.forall_mem_cons.mpr ⟨?_, ?_⟩
        · exact fun info hinfo => ⟨_, List.mem_cons_self, hfirst.prefix_of_call info hinfo⟩
        · intro course hcourse info hinfo
          obtain ⟨segment, hmem, hunder⟩ := hbelow course hcourse info hinfo
          exact ⟨segment, List.mem_cons_of_mem _ hmem, hunder⟩

/-- The calls of an operation stand at places of one response. -/
theorem WorkUnfolds.nested {kind : OperationKind} {site : Site ω σ} {selections : List Selection}
    {work : Work ω σ} {courses : List (Course ω)}
    (h : scope.WorkUnfolds now levels (scope.operationWork kind site selections) work courses) :
    Course.NestedAll site.path courses := by
  have query : ∀ {t : Task ω σ} {course : Course ω},
      scope.Unfolds now (levels + 1) 1 (scope.objectTask site selections) t course →
      Course.NestedAll site.path [course] := by
    intro t course h
    have hcourse := (h.nested (.completed (scope.completed_objectTask site selections))).1
    exact ⟨List.forall_mem_singleton.mpr hcourse, List.pairwise_singleton _ _⟩
  match kind, h with
  | .query, .query h => exact query h
  | .subscription, .query h => exact query h
  | .mutation, .mutation h =>
      exact (h.nested (scope.fits_fieldChildren site selections).nodup
        (scope.fresh_fieldChildren site selections)).1

end Scope

/-! ## Jobs -/

/-- The fields that a job is for. -/
def Job.group : Job ω σ → FieldGroup
  | .field _ group _ => group
  | .item group _ _ _ => group

/-- A job that is left within a task. -/
inductive Task.Holds (job : Job ω σ) : Task ω σ → Prop
  | here : Holds job (.unstarted job)
  | child {shape : Shape ω σ} {turns : Turns} {children : List (Child ω σ)} {position : Position}
      {t : Task ω σ} : .mk position t ∈ children → Holds job t →
      Holds job (.branch shape turns children)

theorem Task.not_holds_of_finished {job : Job ω σ} {t : Task ω σ} (h : t.Holds job) :
    t.outcome? = none := by
  induction h with
  | here => rfl
  | child hmem _ ih =>
      rw [Task.outcome?, Option.map_eq_none_iff]
      match hos : Child.outcomes? _ with
      | none => rfl
      | some os =>
          have hfinished := Child.isFinished_of_mem hos _ hmem
          rw [Child.isFinished, ih] at hfinished
          cases hfinished

namespace Scope

variable {scope : Scope ω σ}

/-- The jobs that an answer is completed to, for the fields of a group with a type and a place. -/
inductive Below (scope : Scope ω σ) (group : FieldGroup) (type : TypeRef) (path : Path) :
    Job ω σ → Prop
  | field {value : ObjectValue ω} {objectType : ObjectType ω σ} {group' : FieldGroup}
      {definition : FieldDefinition ω σ} : type.item? = none →
      scope.schema.objectTypeOf type.innerName value = .ok objectType →
      group' ∈ scope.collect objectType.name group.selections →
      objectType.fields.get? group'.first.name = some definition →
      Below scope group type path (.field ⟨objectType, value, path⟩ group' definition)
  | item {item : TypeRef} {answer : Except ResolverFailure (Resolved ω)} (i : Nat) :
      type.item? = some item → Below scope group type path (.item group item (path ++ [.index i]) answer)

theorem holds_objectTask {site : Site ω σ} {selections : List Selection} {job : Job ω σ}
    (h : (scope.objectTask site selections).Holds job) :
    ∃ group definition, group ∈ scope.collect site.objectType.name selections ∧
      site.objectType.fields.get? group.first.name = some definition ∧
      job = .field site group definition := by
  cases h with
  | child hmem h =>
      obtain ⟨group, hgroup, hchild⟩ := List.mem_map.mp hmem
      by_cases hn : group.first.name = "__typename"
      · rw [fieldChild_typename hn] at hchild
        cases hchild
        cases h
      · match hd : site.objectType.fields.get? group.first.name with
        | none =>
            rw [fieldChild_absent hn hd] at hchild
            cases hchild
        | some definition =>
            rw [fieldChild_field hn hd] at hchild
            cases hchild
            cases h
            exact ⟨group, definition, hgroup, hd, rfl⟩

theorem below_of_holds {group : FieldGroup} {type : TypeRef} {path : Path}
    {answer : Except ResolverFailure (Resolved ω)} {job : Job ω σ}
    (h : (scope.completeAnswer group type path answer).Holds job) :
    scope.Below group type path job := by
  have hc := scope.completes_completeAnswer group type path answer
  generalize scope.completeAnswer group type path answer = task at h hc
  cases hc with
  | failed fault => cases h
  | null _ => cases h
  | scalar _ _ _ _ => cases h
  | enum _ _ _ => cases h
  | object hitem _ htype =>
      obtain ⟨group', definition, hgroup, hd, rfl⟩ := holds_objectTask h
      exact .field hitem htype hgroup hd
  | list hitem _ =>
      cases h with
      | child hmem h =>
          obtain ⟨i, answer, hchild⟩ := exists_of_mem_itemChildren hmem
          cases hchild
          cases h
          exact .item i hitem

/-- A property of jobs that goes on to the jobs that their answers are completed to. -/
def Inherits (scope : Scope ω σ) (P : Job ω σ → Prop) : Prop :=
  ∀ ⦃job below : Job ω σ⦄, P job → scope.Below job.group job.type job.path below → P below

section Inherits

variable {P : Job ω σ → Prop} {now : Nat}

theorem Inherits.completed (hP : scope.Inherits P) {job : Job ω σ} (h : P job)
    (answer : Except ResolverFailure (Resolved ω)) :
    ∀ below, (scope.completeAnswer job.group job.type job.path answer).Holds below → P below :=
  fun _ hbelow => hP h (below_of_holds hbelow)

mutual

/-- What holds of the jobs of a task holds of the jobs that are left. -/
theorem Unfolds.holds (hP : scope.Inherits P) :
    ∀ {levels start : Nat} {t t' : Task ω σ} {course : Course ω},
      scope.Unfolds now levels start t t' course → (∀ job, t.Holds job → P job) →
      ∀ job, t'.Holds job → P job
  | _, _, _, _, _, .value _, h => h
  | _, _, _, _, _, .failed _, h => h
  | _, _, _, _, _, .unbegun _, h => h
  | _, _, _, _, _, .item hu, h => hu.holds hP (hP.completed (h _ .here) _)
  | _, _, _, _, _, .refused _, _ => fun _ hjob => by cases hjob
  | _, _, _, _, _, .read _ _ hu, h => hu.holds hP (hP.completed (h _ .here) _)
  | _, _, _, _, _, .called _ _ _ _ hu, h => hu.holds hP (hP.completed (h _ .here) _)
  | _, _, _, _, _, .waiting _ _ _ _, _ => fun _ hjob => by cases hjob
  | _, _, _, _, _, .branch _ hs, h => by
      intro job hjob
      cases hjob with
      | child hmem hjob =>
          exact hs.holds hP (fun position t hmem job hjob => h job (.child hmem hjob)) _ _ hmem job hjob

theorem UnfoldsAll.holds (hP : scope.Inherits P) :
    ∀ {levels start : Nat} {children children' : List (Child ω σ)} {course : Course ω},
      scope.UnfoldsAll now levels start children children' course →
      (∀ position t, .mk position t ∈ children → ∀ job, t.Holds job → P job) →
      ∀ position t, .mk position t ∈ children' → ∀ job, t.Holds job → P job
  | _, _, _, _, _, .nil, h => h
  | _, _, _, _, _, .absent hs, h => by
      intro position t hmem
      rcases List.mem_cons.mp hmem with heq | hmem
      · cases heq
      · exact hs.holds hP (fun position t hmem => h position t (List.mem_cons_of_mem _ hmem)) _ _ hmem
  | _, _, _, _, _, .cons hu hs, h => by
      intro position t hmem
      rcases List.mem_cons.mp hmem with heq | hmem
      · cases heq
        exact hu.holds hP (h _ _ List.mem_cons_self)
      · exact hs.holds hP (fun position t hmem => h position t (List.mem_cons_of_mem _ hmem)) _ _ hmem

end

mutual

/-- If no job is suspended for long, the course is as short, level by level. -/
theorem Unfolds.span_le_mul (hP : scope.Inherits P) {most : Nat}
    (hmost : ∀ job, P job → job.suspension ≤ most) :
    ∀ {levels start : Nat} {t t' : Task ω σ} {course : Course ω},
      scope.Unfolds now levels start t t' course → (∀ job, t.Holds job → P job) →
      course.span ≤ levels * most ∧ ∀ path, t.Completed path → course.span ≤ (levels - 1) * most
  | _, _, _, _, _, .value _, _ => ⟨Nat.zero_le _, fun _ _ => Nat.zero_le _⟩
  | _, _, _, _, _, .failed _, _ => ⟨Nat.zero_le _, fun _ _ => Nat.zero_le _⟩
  | _, _, _, _, _, .unbegun _, _ => ⟨Nat.zero_le _, fun _ _ => Nat.zero_le _⟩
  | _, _, _, _, _, .item hu, h => by
      have hnext := (hu.span_le_mul hP hmost (hP.completed (h _ .here) _)).1
      exact ⟨hnext, fun _ hc => by cases hc⟩
  | _, _, _, _, _, .refused _, _ => ⟨Nat.zero_le _, fun _ _ => Nat.zero_le _⟩
  | _, _, _, _, _, .read _ _ hu, h => by
      have hnext := (hu.span_le_mul hP hmost (hP.completed (h _ .here) _)).1
      exact ⟨hnext, fun _ hc => by cases hc⟩
  | levels + 1, _, _, _, _, .called _ hres _ _ hu, h => by
      have hnext := (hu.span_le_mul hP hmost (hP.completed (h _ .here) _)).2 _
        (scope.completed_completeAnswer _ _ _ _)
      have hown := hmost _ (h _ .here)
      simp only [Job.suspension, hres, Option.bind_some] at hown
      refine ⟨?_, fun _ hc => by cases hc⟩
      rw [Course.span, Nat.succ_mul, Nat.add_comm]
      exact Nat.add_le_add hnext hown
  | levels + 1, _, _, _, _, .waiting _ hres hsusp _, h => by
      have hown := hmost _ (h _ .here)
      simp only [Job.suspension, hres, Option.bind_some, hsusp, Option.getD_some] at hown
      refine ⟨?_, fun _ hc => by cases hc⟩
      rw [Course.span, Nat.succ_mul]
      exact Nat.le_add_left_of_le hown
  | levels + 1, _, _, _, _, .branch _ hs, h => by
      have hbelow := hs.span_le_mul hP hmost fun position t hmem job hjob => h job (.child hmem hjob)
      refine ⟨?_, fun _ _ => hbelow⟩
      rw [Nat.succ_mul]
      exact Nat.le_add_right_of_le hbelow

theorem UnfoldsAll.span_le_mul (hP : scope.Inherits P) {most : Nat}
    (hmost : ∀ job, P job → job.suspension ≤ most) :
    ∀ {levels start : Nat} {children children' : List (Child ω σ)} {course : Course ω},
      scope.UnfoldsAll now levels start children children' course →
      (∀ position t, .mk position t ∈ children → ∀ job, t.Holds job → P job) →
      course.span ≤ levels * most
  | _, _, _, _, _, .nil, _ => Nat.zero_le _
  | _, _, _, _, _, .absent hs, h =>
      hs.span_le_mul hP hmost fun position t hmem => h position t (List.mem_cons_of_mem _ hmem)
  | _, _, _, _, _, .cons hu hs, h =>
      Nat.max_le.mpr ⟨(hu.span_le_mul hP hmost (h _ _ List.mem_cons_self)).1,
        hs.span_le_mul hP hmost fun position t hmem => h position t (List.mem_cons_of_mem _ hmem)⟩

end

end Inherits

/-! ## Work that is cut off -/

section Cut

variable {now : Nat}

mutual

/-- Work that stands below the levels is a job that has not begun, as deep as the levels reach. -/
theorem Unfolds.exists_holds_of_cut :
    ∀ {levels start : Nat} {t t' : Task ω σ} {course : Course ω} {path : Path},
      scope.Unfolds now levels start t t' course → t.At path → t'.Cut levels →
      ∃ job, t'.Holds job ∧ path.length + levels ≤ job.path.length
  | _, _, _, _, _, _, .value _, _, hcut => absurd hcut (not_cut_of_finished rfl)
  | _, _, _, _, _, _, .failed _, _, hcut => absurd hcut (not_cut_of_finished rfl)
  | levels, _, _, _, _, _, .unbegun _, hat, hcut => by
      match levels, hcut with
      | 0, _ => exact ⟨_, .here, Nat.le_of_eq (hat.job_path ▸ rfl)⟩
  | _, _, _, _, _, _, .item hu, hat, hcut => by
      obtain rfl := hat.job_path
      exact hu.exists_holds_of_cut (.completed (scope.completed_completeAnswer _ _ _ _)) hcut
  | _, _, _, _, _, _, .refused _, _, hcut => absurd hcut (not_cut_of_finished rfl)
  | _, _, _, _, _, _, .read _ _ hu, hat, hcut => by
      obtain rfl := hat.job_path
      exact hu.exists_holds_of_cut (.completed (scope.completed_completeAnswer _ _ _ _)) hcut
  | _, _, _, _, _, _, .called _ _ _ _ hu, hat, hcut => by
      obtain rfl := hat.job_path
      exact hu.exists_holds_of_cut (.completed (scope.completed_completeAnswer _ _ _ _)) hcut
  | _, _, _, _, _, _, .waiting _ _ _ _, _, hcut => hcut.elim
  | _, _, _, _, _, path, .branch _ hs, hat, hcut => by
      cases hat with
      | completed hc =>
          cases hc with
          | branch _ hfresh =>
              obtain ⟨position, t, job, hmem, hjob, hlen⟩ := hs.exists_holds_of_cut hfresh hcut
              exact ⟨job, .child hmem hjob, by omega⟩

theorem UnfoldsAll.exists_holds_of_cut :
    ∀ {levels start : Nat} {children children' : List (Child ω σ)} {course : Course ω} {path : Path},
      scope.UnfoldsAll now levels start children children' course →
      (∀ child ∈ children, child.Fresh path) →
      (∃ position t, .mk position t ∈ children' ∧ t.Cut levels) →
      ∃ position t job, .mk position t ∈ children' ∧ t.Holds job ∧
        path.length + 1 + levels ≤ job.path.length
  | _, _, _, _, _, _, .nil, _, ⟨_, _, hmem, _⟩ => by cases hmem
  | _, _, _, _, _, _, .absent hs, hfresh, ⟨position, t, hmem, hcut⟩ => by
      rcases List.mem_cons.mp hmem with heq | hmem
      · cases heq
      · obtain ⟨position, t, job, hmem, hjob⟩ :=
          hs.exists_holds_of_cut (List.forall_mem_cons.mp hfresh).2 ⟨position, t, hmem, hcut⟩
        exact ⟨position, t, job, List.mem_cons_of_mem _ hmem, hjob⟩
  | _, _, _, _, _, _, .cons hu hs, hfresh, ⟨position, t, hmem, hcut⟩ => by
      obtain ⟨hchild, hrest⟩ := List.forall_mem_cons.mp hfresh
      rcases List.mem_cons.mp hmem with heq | hmem
      · cases heq
        obtain ⟨job, hjob, hlen⟩ := hu.exists_holds_of_cut hchild.task_at hcut
        rw [List.length_append, List.length_singleton] at hlen
        exact ⟨_, _, job, List.mem_cons_self, hjob, hlen⟩
      · obtain ⟨position, t, job, hmem, hjob⟩ :=
          hs.exists_holds_of_cut hrest ⟨position, t, hmem, hcut⟩
        exact ⟨position, t, job, List.mem_cons_of_mem _ hmem, hjob⟩

end

end Cut

end Scope

/-! ## Operations -/

/-- A job that is left within an operation. -/
inductive Work.Holds (job : Job ω σ) : Work ω σ → Prop
  | query {t : Task ω σ} : t.Holds job → Holds job (.query t)
  | mutation {site : Site ω σ} {fields : List (Child ω σ)} {position : Position} {t : Task ω σ} :
      .mk position t ∈ fields → t.Holds job → Holds job (.mutation site fields)

/-- Some work on an operation stands below the levels that are worked on. -/
def Work.Cut (levels : Nat) : Work ω σ → Prop
  | .query t => t.Cut (levels + 1)
  | .mutation _ fields => ∃ position t, Child.mk position t ∈ fields ∧ t.Cut levels

namespace Scope

variable {scope : Scope ω σ} {now levels start : Nat}

/-- Without a limit to the width, fields that are not finished are early for their courses, unless
work stands below the levels. -/
theorem UnfoldsInTurn.lt_spans (hw : scope.width = none) {fields fields' : List (Child ω σ)}
    {courses : List (Course ω)} (h : scope.UnfoldsInTurn now levels start fields fields' courses)
    (hos : Child.outcomes? fields' = none)
    (hcut : ∀ position t, .mk position t ∈ fields' → ¬ t.Cut levels) :
    now < start + Course.spans courses := by
  induction h with
  | fresh hstart =>
      rw [hstart hw]
      exact Nat.lt_add_right _ (Nat.lt_succ_self now)
  | nil _ => cases hos
  | absent _ ih => exact ih hos fun position t hmem => hcut position t (List.mem_cons_of_mem _ hmem)
  | wait _ h ho => exact h.lt_span hw ho (hcut _ _ List.mem_cons_self)
  | stop _ _ _ ho _ => simp [Child.outcomes?, ho] at hos
  | next _ _ _ ho _ _ ih =>
      have hlater := ih (Child.outcomes?_later_eq_none ho hos)
        fun position t hmem => hcut position t (List.mem_cons_of_mem _ hmem)
      simp only [Course.spans]
      omega

theorem WorkUnfolds.lt_spans (hw : scope.width = none) {start work : Work ω σ}
    {courses : List (Course ω)} (h : scope.WorkUnfolds now levels start work courses)
    (ho : work.outcome? = none) (hcut : ¬ work.Cut levels) : now < 1 + Course.spans courses := by
  cases h with
  | query h => exact h.lt_span hw ho hcut
  | mutation h =>
      exact h.lt_spans hw (Option.map_eq_none_iff.mp ho)
        fun position t hmem ht => hcut ⟨position, t, hmem, ht⟩

/-- A field as completion leaves it is cut off only if it has not begun and no level is left. -/
theorem exists_holds_of_fresh {path : Path} {position : Position} {t : Task ω σ}
    (hfresh : (Child.mk position t).Fresh path) (hcut : t.Cut levels) :
    ∃ job, t.Holds job ∧ path.length + 1 + levels ≤ job.path.length := by
  cases hfresh with
  | typename key name => cases levels <;> cases hcut
  | job hpath =>
      match levels, hcut with
      | 0, _ => exact ⟨_, .here, by simp [hpath]⟩

theorem UnfoldsInTurn.exists_holds_of_cut {fields fields' : List (Child ω σ)}
    {courses : List (Course ω)} {path : Path}
    (h : scope.UnfoldsInTurn now levels start fields fields' courses)
    (hfresh : ∀ child ∈ fields, child.Fresh path) {position : Position} {t : Task ω σ}
    (hmem : .mk position t ∈ fields') (hcut : t.Cut levels) :
    ∃ position t job, .mk position t ∈ fields' ∧ t.Holds job ∧
      path.length + 1 + levels ≤ job.path.length := by
  induction h with
  | fresh _ =>
      obtain ⟨job, hjob, hlen⟩ := exists_holds_of_fresh (hfresh _ hmem) hcut
      exact ⟨position, t, job, hmem, hjob, hlen⟩
  | nil _ => cases hmem
  | absent _ ih =>
      rcases List.mem_cons.mp hmem with heq | hmem
      · cases heq
      · obtain ⟨position, t, job, hmem, hjob⟩ := ih (List.forall_mem_cons.mp hfresh).2 hmem
        exact ⟨position, t, job, List.mem_cons_of_mem _ hmem, hjob⟩
  | wait _ h _ =>
      rcases List.mem_cons.mp hmem with heq | hmem
      · cases heq
        obtain ⟨job, hjob, hlen⟩ := h.exists_holds_of_cut (hfresh _ List.mem_cons_self).task_at hcut
        rw [List.length_append, List.length_singleton] at hlen
        exact ⟨_, _, job, List.mem_cons_self, hjob, hlen⟩
      · obtain ⟨job, hjob, hlen⟩ :=
          exists_holds_of_fresh (hfresh _ (List.mem_cons_of_mem _ hmem)) hcut
        exact ⟨position, t, job, List.mem_cons_of_mem _ hmem, hjob, hlen⟩
  | stop _ _ _ ho _ =>
      cases List.mem_singleton.mp hmem
      exact absurd hcut (not_cut_of_finished ho)
  | next _ _ _ ho _ _ ih =>
      rcases List.mem_cons.mp hmem with heq | hmem
      · cases heq
        exact absurd hcut (not_cut_of_finished ho)
      · obtain ⟨position, t, job, hmem, hjob⟩ := ih (List.forall_mem_cons.mp hfresh).2 hmem
        exact ⟨position, t, job, List.mem_cons_of_mem _ hmem, hjob⟩

/-- The jobs that are left of the fields of a mutation have what the jobs of all fields had. -/
theorem UnfoldsInTurn.holds {P : Job ω σ → Prop} (hP : scope.Inherits P)
    {fields fields' : List (Child ω σ)} {courses : List (Course ω)}
    (h : scope.UnfoldsInTurn now levels start fields fields' courses)
    (hfields : ∀ position t, .mk position t ∈ fields → ∀ job, t.Holds job → P job) :
    ∀ position t, .mk position t ∈ fields' → ∀ job, t.Holds job → P job := by
  induction h with
  | fresh _ => exact hfields
  | nil _ => exact hfields
  | absent _ ih =>
      intro position t hmem
      rcases List.mem_cons.mp hmem with heq | hmem
      · cases heq
      · exact ih (fun position t hmem => hfields position t (List.mem_cons_of_mem _ hmem)) _ _ hmem
  | wait _ h _ =>
      intro position t hmem
      rcases List.mem_cons.mp hmem with heq | hmem
      · cases heq
        exact h.holds hP (hfields _ _ List.mem_cons_self)
      · exact hfields _ _ (List.mem_cons_of_mem _ hmem)
  | stop _ _ _ ho _ =>
      intro position t hmem job hjob
      cases List.mem_singleton.mp hmem
      rw [Task.not_holds_of_finished hjob] at ho
      cases ho
  | next _ _ _ ho _ _ ih =>
      intro position t hmem job hjob
      rcases List.mem_cons.mp hmem with heq | hmem
      · cases heq
        rw [Task.not_holds_of_finished hjob] at ho
        cases ho
      · exact ih (fun position t hmem => hfields position t (List.mem_cons_of_mem _ hmem)) _ _ hmem
          job hjob

theorem UnfoldsInTurn.spans_le_mul {P : Job ω σ → Prop} (hP : scope.Inherits P) {most : Nat}
    (hmost : ∀ job, P job → job.suspension ≤ most) {fields fields' : List (Child ω σ)}
    {courses : List (Course ω)}
    (h : scope.UnfoldsInTurn now levels start fields fields' courses)
    (hfields : ∀ position t, .mk position t ∈ fields → ∀ job, t.Holds job → P job) :
    Course.spans courses ≤ fields.length * (levels * most) := by
  induction h with
  | fresh _ => exact Nat.zero_le _
  | nil _ => exact Nat.zero_le _
  | absent _ ih =>
      have hlater := ih fun position t hmem => hfields position t (List.mem_cons_of_mem _ hmem)
      rw [List.length_cons, Nat.succ_mul]
      exact Nat.le_add_right_of_le hlater
  | wait _ h _ =>
      have hfirst := (h.span_le_mul hP hmost (hfields _ _ List.mem_cons_self)).1
      rw [List.length_cons, Nat.succ_mul]
      exact Nat.le_add_left_of_le hfirst
  | stop _ h _ _ _ =>
      have hfirst := (h.span_le_mul hP hmost (hfields _ _ List.mem_cons_self)).1
      rw [List.length_cons, Nat.succ_mul]
      exact Nat.le_add_left_of_le hfirst
  | next _ h _ _ _ _ ih =>
      have hfirst := (h.span_le_mul hP hmost (hfields _ _ List.mem_cons_self)).1
      have hlater := ih fun position t hmem => hfields position t (List.mem_cons_of_mem _ hmem)
      rw [List.length_cons, Nat.succ_mul, Course.spans, Nat.add_comm]
      exact Nat.add_le_add hlater hfirst

section Operation

variable {kind : OperationKind} {site : Site ω σ} {selections : List Selection} {work : Work ω σ}
  {courses : List (Course ω)} {P : Job ω σ → Prop}

/-- The first jobs of an operation. -/
theorem holds_operationWork {job : Job ω σ}
    (h : (scope.operationWork kind site selections).Holds job) :
    ∃ group definition, group ∈ scope.collect site.objectType.name selections ∧
      site.objectType.fields.get? group.first.name = some definition ∧
      job = .field site group definition := by
  match kind, h with
  | .query, .query h => exact holds_objectTask h
  | .subscription, .query h => exact holds_objectTask h
  | .mutation, .mutation hmem h =>
      exact holds_objectTask (show (scope.objectTask site selections).Holds job from .child hmem h)

/-- What holds of the first jobs of an operation holds of all jobs that are left. -/
theorem WorkUnfolds.holds (hP : scope.Inherits P) {start : Work ω σ}
    (h : scope.WorkUnfolds now levels start work courses) (hstart : ∀ job, start.Holds job → P job) :
    ∀ job, work.Holds job → P job := by
  cases h with
  | query h =>
      rintro job (hjob | _)
      exact h.holds hP (fun job hjob => hstart job (.query hjob)) job hjob
  | mutation h =>
      rintro job (_ | ⟨hmem, hjob⟩)
      exact h.holds hP (fun position t hmem job hjob => hstart job (.mutation hmem hjob)) _ _ hmem
        job hjob

/-- The courses of an operation are bounded, however long they go on. -/
theorem WorkUnfolds.exists_spans_le (hP : scope.Inherits P) {most : Nat}
    (hmost : ∀ job, P job → job.suspension ≤ most) {start : Work ω σ}
    (hstart : ∀ job, start.Holds job → P job) :
    ∃ bound, ∀ now work courses, scope.WorkUnfolds now levels start work courses →
      Course.spans courses ≤ bound := by
  match start with
  | .query t =>
      refine ⟨(levels + 1) * most, ?_⟩
      rintro now _ _ (h | _)
      exact (h.span_le_mul hP hmost fun job hjob => hstart job (.query hjob)).1
  | .mutation site fields =>
      refine ⟨fields.length * (levels * most), ?_⟩
      rintro now _ _ (_ | h)
      exact h.spans_le_mul hP hmost fun position t hmem job hjob => hstart job (.mutation hmem hjob)

/-- Work on an operation that stands below the levels is a job at a place as deep. -/
theorem WorkUnfolds.exists_holds_of_cut
    (h : scope.WorkUnfolds now levels (scope.operationWork kind site selections) work courses)
    (hcut : work.Cut levels) :
    ∃ job, work.Holds job ∧ site.path.length + 1 + levels ≤ job.path.length := by
  have query : ∀ {t : Task ω σ} {course : Course ω},
      scope.Unfolds now (levels + 1) 1 (scope.objectTask site selections) t course →
      t.Cut (levels + 1) →
      ∃ job, (Work.query t).Holds job ∧ site.path.length + 1 + levels ≤ job.path.length := by
    intro t course h hcut
    obtain ⟨job, hjob, hlen⟩ :=
      h.exists_holds_of_cut (.completed (scope.completed_objectTask site selections)) hcut
    exact ⟨job, .query hjob, by omega⟩
  match kind, h with
  | .query, .query h => exact query h hcut
  | .subscription, .query h => exact query h hcut
  | .mutation, .mutation h =>
      obtain ⟨position, t, hmem, hcut⟩ := hcut
      obtain ⟨position, t, job, hmem, hjob, hlen⟩ :=
        h.exists_holds_of_cut (scope.fresh_fieldChildren site selections) hmem hcut
      exact ⟨job, .mutation hmem hjob, hlen⟩

end Operation

end Scope

end GraphQLEngine
