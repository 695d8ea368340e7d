/-
How deep the work on a request can nest.

Every field on the way to a job adds at most as many levels as the lists of its
declared type nest (`Scope.inherits_declared`), so work that the levels of a
request do not reach stands below more fields than its depth allows
(`Prepares.exists_deep_of_cut`).  In an acyclic document, there are no more
fields on the way than its `depthBound` (`Scope.inherits_shallow`).
-/
import GraphQLEngine.Proofs.Nesting
import GraphQLEngine.Proofs.Spreads

namespace GraphQLEngine

variable {ω σ : Type}

/-! ## Declared fields -/

namespace Schema

variable {schema : Schema ω σ}

/-- A field of an object type of the schema. -/
def Declares (schema : Schema ω σ) (definition : FieldDefinition ω σ) : Prop :=
  ∃ typeName type fieldName, schema.object? typeName = some type ∧
    type.fields.get? fieldName = some definition

/-- The largest of the numbers that the fields of object types have. -/
def most (schema : Schema ω σ) (number : FieldDefinition ω σ → Nat) : Nat :=
  schema.types.foldr (fun t deepest =>
    match t.2 with
    | .object o => o.fields.foldr (fun f deepest => max (number f.2) deepest) deepest
    | _ => deepest) 0

theorem le_foldr_max {number : FieldDefinition ω σ → Nat} (least : Nat) :
    ∀ fields : OrderedMap (FieldDefinition ω σ),
      least ≤ fields.foldr (fun f deepest => max (number f.2) deepest) least ∧
        ∀ f ∈ fields, number f.2 ≤ fields.foldr (fun f deepest => max (number f.2) deepest) least
  | [] => ⟨Nat.le_refl _, nofun⟩
  | f :: rest => by
      obtain ⟨hleast, hrest⟩ := le_foldr_max least rest
      refine ⟨Nat.le_trans hleast (Nat.le_max_right _ _), ?_⟩
      refine List.forall_mem_cons.mpr ⟨Nat.le_max_left _ _, ?_⟩
      intro f' hf'
      exact Nat.le_trans (hrest f' hf') (Nat.le_max_right _ _)

theorem Declares.le_most {definition : FieldDefinition ω σ} (h : schema.Declares definition)
    (number : FieldDefinition ω σ → Nat) : number definition ≤ schema.most number := by
  obtain ⟨typeName, type, fieldName, htype, hfield⟩ := h
  have hmem : (typeName, .object type) ∈ schema.types := OrderedMap.mem_of_get? (type?_of_object? htype)
  rw [most]
  generalize schema.types = types at hmem
  induction types with
  | nil => cases hmem
  | cons t rest ih =>
      rw [List.foldr_cons]
      rcases List.mem_cons.mp hmem with rfl | hmem
      · exact (le_foldr_max _ type.fields).2 _ (OrderedMap.mem_of_get? hfield)
      · have hle := ih hmem
        split
        · exact Nat.le_trans hle (le_foldr_max _ _).1
        · exact hle

theorem Declares.listDepth_le {definition : FieldDefinition ω σ} (h : schema.Declares definition) :
    definition.type.listDepth ≤ schema.listDepth :=
  h.le_most fun definition => definition.type.listDepth

theorem exists_object?_of_root? {kind : OperationKind} {root : ObjectType ω σ}
    (h : schema.root? kind = some root) : ∃ name, schema.object? name = some root := by
  match kind with
  | .query => exact ⟨_, h⟩
  | .mutation =>
      obtain ⟨name, _, hname⟩ := Option.bind_eq_some_iff.mp h
      exact ⟨name, hname⟩
  | .subscription => cases h

/-- The fields of an object type that is found for a value are declared. -/
theorem declares_of_objectTypeOf {name : Name} {value : ObjectValue ω} {type : ObjectType ω σ}
    (htype : schema.objectTypeOf name value = .ok type) {fieldName : Name}
    {definition : FieldDefinition ω σ} (h : type.fields.get? fieldName = some definition) :
    schema.Declares definition := by
  obtain ⟨name', hname⟩ := exists_object?_of_objectTypeOf htype
  exact ⟨name', type, fieldName, hname, h⟩

/-- The first jobs of a request are for declared fields of its root type, which its operation selects. -/
theorem Prepares.exists_of_start_holds {request : Request ω} {operation : Operation}
    {root : ObjectType ω σ} {prepared : Prepared ω σ}
    (hp : schema.Prepares request operation root prepared) {job : Job ω σ}
    (hjob : prepared.start.Holds job) :
    ∃ group definition, group ∈ prepared.scope.collect root.name operation.selections ∧
      schema.Declares definition ∧ job = .field ⟨root, request.root, []⟩ group definition := by
  rw [hp.start_eq] at hjob
  obtain ⟨group, definition, hgroup, hfield, rfl⟩ := Scope.holds_operationWork hjob
  obtain ⟨name, hname⟩ := exists_object?_of_root? hp.root_eq
  exact ⟨group, definition, hgroup, ⟨name, root, _, hname, hfield⟩, rfl⟩

end Schema

/-! ## Levels -/

theorem TypeRef.listDepth_of_item? {type item : TypeRef} (h : type.item? = some item) :
    type.listDepth = item.listDepth + 1 := by
  cases type with
  | named _ => cases h
  | nonNullNamed _ => cases h
  | list _ => cases h; rfl
  | nonNullList _ => cases h; rfl

def PathSegment.isKey : PathSegment → Bool
  | .key _ => true
  | .index _ => false

/-- How many fields lead to a place. -/
def Path.fieldDepth (path : Path) : Nat :=
  path.countP PathSegment.isKey

theorem Path.fieldDepth_key (path : Path) (key : Name) :
    Path.fieldDepth (path ++ [.key key]) = Path.fieldDepth path + 1 := by
  simp [fieldDepth, PathSegment.isKey]

theorem Path.fieldDepth_index (path : Path) (i : Nat) :
    Path.fieldDepth (path ++ [.index i]) = Path.fieldDepth path := by
  simp [fieldDepth, PathSegment.isKey]

/-- A job for a field of the schema, or for an item of its list.  The lists on the way to it, and in
its type, are those of the fields on the way. -/
structure Job.Declared (schema : Schema ω σ) (job : Job ω σ) : Prop where
  suspension_le : job.suspension ≤ schema.most fun definition =>
    (definition.resolver?.bind Resolver.suspension).getD 0
  length_le : job.path.length + job.type.listDepth ≤
    job.path.fieldDepth * (schema.listDepth + 1)

theorem Job.Declared.field {schema : Schema ω σ} {site : Site ω σ} {group : FieldGroup}
    {definition : FieldDefinition ω σ} (hdeclares : schema.Declares definition)
    (hsite : site.path.length ≤ site.path.fieldDepth * (schema.listDepth + 1)) :
    (Job.field site group definition).Declared schema where
  suspension_le := hdeclares.le_most fun definition =>
    (definition.resolver?.bind Resolver.suspension).getD 0
  length_le := by
    have hlists := hdeclares.listDepth_le
    simp only [Job.path, Job.type, Site.fieldPath, Path.fieldDepth_key, List.length_append,
      List.length_singleton, Nat.succ_mul]
    omega

namespace Scope

variable {scope : Scope ω σ}

theorem inherits_declared (scope : Scope ω σ) : scope.Inherits (Job.Declared scope.schema) := by
  intro job below h hbelow
  cases hbelow with
  | field hitem htype _ hfield =>
      exact .field (Schema.declares_of_objectTypeOf htype hfield)
        (Nat.le_trans (Nat.le_add_right _ _) h.length_le)
  | @item item _ i hitem =>
      have hlength := h.length_le
      rw [TypeRef.listDepth_of_item? hitem] at hlength
      refine ⟨Nat.zero_le _, ?_⟩
      show (job.path ++ [PathSegment.index i]).length + item.listDepth ≤
        Path.fieldDepth (job.path ++ [.index i]) * _
      rw [Path.fieldDepth_index, List.length_append, List.length_singleton]
      omega

end Scope

/-! ## Acyclic documents -/

/-- A job at or below which selection sets nest only to some depth. -/
structure Job.Shallow (document : Document) (depth : Nat) (job : Job ω σ) : Prop where
  path_le : job.path.fieldDepth ≤ depth
  reach_le : ∀ s ∈ job.group.selections, job.path.fieldDepth + s.reach document.fragments ≤ depth

theorem mem_of_mem_addToGroups {field f : Field} {group : FieldGroup} (hf : f ∈ group.fields) :
    ∀ {groups : List FieldGroup}, group ∈ addToGroups field groups →
      f = field ∨ ∃ group' ∈ groups, f ∈ group'.fields
  | [], hmem => by
      cases List.mem_singleton.mp hmem
      exact .inl (List.mem_singleton.mp hf)
  | g :: rest, hmem => by
      rw [addToGroups] at hmem
      split at hmem
      · rcases List.mem_cons.mp hmem with rfl | hmem
        · rcases List.mem_append.mp (show f ∈ (g.first :: g.others) ++ [field] from hf) with hf | hf
          · exact .inr ⟨g, List.mem_cons_self, hf⟩
          · exact .inl (List.mem_singleton.mp hf)
        · exact .inr ⟨group, List.mem_cons_of_mem _ hmem, hf⟩
      · rcases List.mem_cons.mp hmem with rfl | hmem
        · exact .inr ⟨group, List.mem_cons_self, hf⟩
        · refine (mem_of_mem_addToGroups hf hmem).imp id ?_
          rintro ⟨group', hgroup', hf⟩
          exact ⟨group', List.mem_cons_of_mem _ hgroup', hf⟩

/-- The fields of groups are those that were grouped. -/
theorem mem_of_mem_groupFields {f : Field} {group : FieldGroup} (hf : f ∈ group.fields) :
    ∀ {fields : List Field} {groups : List FieldGroup}, group ∈ groupFields fields groups →
      f ∈ fields ∨ ∃ group' ∈ groups, f ∈ group'.fields
  | [], _, hmem => .inr ⟨group, hmem, hf⟩
  | field :: rest, groups, hmem => by
      have hrest : group ∈ groupFields rest (addToGroups field groups) := hmem
      rcases mem_of_mem_groupFields hf hrest with hmem | ⟨group', hgroup', hf'⟩
      · exact .inl (List.mem_cons_of_mem _ hmem)
      · rcases mem_of_mem_addToGroups hf' hgroup' with rfl | hold
        · exact .inl List.mem_cons_self
        · exact .inr hold

namespace Scope

variable {scope : Scope ω σ} {document : Document} {depth : Nat}

/-- The fields that are collected lead no deeper than the selections that they come from. -/
theorem shallow_field (hfragments : scope.fragments = document.fragments)
    (hacyclic : document.Acyclic) {site : Site ω σ} {selections : List Selection}
    (hselections : ∀ s ∈ selections, site.path.fieldDepth + s.reach document.fragments ≤ depth)
    {group : FieldGroup} (hgroup : group ∈ scope.collect site.objectType.name selections)
    (definition : FieldDefinition ω σ) : (Job.field site group definition).Shallow document depth := by
  obtain ⟨v, fields, hflat, hcollect⟩ := scope.collect_flattens site.objectType.name selections
  have hfield : ∀ f ∈ group.fields,
      site.path.fieldDepth + (Selection.field f).reach document.fragments ≤ depth := by
    intro f hf
    have hmem : f ∈ fields := by
      rw [hcollect] at hgroup
      exact (mem_of_mem_groupFields hf hgroup).resolve_right (by simp)
    exact hflat.reach_le hfragments hacyclic hselections f hmem
  have hpath : (Job.field site group definition).path.fieldDepth = site.path.fieldDepth + 1 :=
    Path.fieldDepth_key _ _
  refine ⟨?_, ?_⟩
  · have hle := hfield group.first List.mem_cons_self
    rw [Selection.reach, Selection.nesting] at hle
    omega
  · intro s hs
    obtain ⟨f, hf, hs⟩ := List.mem_flatMap.mp hs
    have hle := hfield f hf
    have hlt : s.reach document.fragments < (Selection.field f).reach document.fragments :=
      Selection.reach_lt_of_mem_field hs
    omega

theorem inherits_shallow (hfragments : scope.fragments = document.fragments)
    (hacyclic : document.Acyclic) : scope.Inherits (Job.Shallow document depth) := by
  intro job below h hbelow
  cases hbelow with
  | field _ _ hgroup _ => exact shallow_field hfragments hacyclic h.reach_le hgroup _
  | @item item _ i _ =>
      refine ⟨?_, ?_⟩
      · show Path.fieldDepth (job.path ++ [.index i]) ≤ depth
        rw [Path.fieldDepth_index]
        exact h.path_le
      · show ∀ s ∈ job.group.selections, Path.fieldDepth (job.path ++ [.index i]) + _ ≤ depth
        rw [Path.fieldDepth_index]
        exact h.reach_le

end Scope

/-! ## Requests -/

namespace Schema

variable {schema : Schema ω σ} {request : Request ω} {operation : Operation}
  {root : ObjectType ω σ} {prepared : Prepared ω σ}

theorem Prepares.declared_start (hp : schema.Prepares request operation root prepared) :
    ∀ job, prepared.start.Holds job → job.Declared prepared.scope.schema := by
  intro job hjob
  obtain ⟨group, definition, _, hdeclares, rfl⟩ := hp.exists_of_start_holds hjob
  rw [hp.scope_eq]
  exact .field hdeclares (Nat.zero_le _)

/-- Work that the levels of a request do not reach stands deeper than its depth. -/
theorem Prepares.exists_deep_of_cut (hp : schema.Prepares request operation root prepared) {now : Nat}
    {work : Work ω σ} {courses : List (Course ω)}
    (h : prepared.scope.WorkUnfolds now prepared.levels prepared.start work courses)
    (hcut : work.Cut prepared.levels) :
    ∃ job, work.Holds job ∧ request.depth + 2 < job.path.fieldDepth := by
  have hdeclared := h.holds prepared.scope.inherits_declared hp.declared_start
  rw [hp.start_eq] at h
  obtain ⟨job, hjob, hlength⟩ := h.exists_holds_of_cut hcut
  refine ⟨job, hjob, ?_⟩
  have hle := (hdeclared job hjob).length_le
  have hschema : prepared.scope.schema = schema := by rw [hp.scope_eq]
  rw [hp.levels_eq, Schema.levels, List.length_nil] at hlength
  rw [hschema] at hle
  by_contra hshallow
  have hmul := Nat.mul_le_mul_right (schema.listDepth + 1) (Nat.le_of_not_lt hshallow)
  omega

/-- In an acyclic document, nothing stands deeper than the bound of the document. -/
theorem Prepares.fieldDepth_le (hp : schema.Prepares request operation root prepared)
    (hacyclic : request.document.Acyclic) {now : Nat} {work : Work ω σ} {courses : List (Course ω)}
    (h : prepared.scope.WorkUnfolds now prepared.levels prepared.start work courses)
    {job : Job ω σ} (hjob : work.Holds job) :
    job.path.fieldDepth ≤ request.document.depthBound := by
  have hfragments : prepared.scope.fragments = request.document.fragments := by rw [hp.scope_eq]
  have hselections : ∀ s ∈ operation.selections,
      Path.fieldDepth [] + s.reach request.document.fragments ≤ request.document.depthBound := by
    intro s hs
    rw [Path.fieldDepth, List.countP_nil, Nat.zero_add]
    exact Document.reach_le_depthBound (Document.mem_of_selectOperation hp.selects) hs
  have hstart : ∀ job, prepared.start.Holds job →
      job.Shallow request.document request.document.depthBound := by
    intro job hjob
    obtain ⟨group, definition, hgroup, _, rfl⟩ := hp.exists_of_start_holds hjob
    exact Scope.shallow_field hfragments hacyclic hselections hgroup definition
  exact (h.holds (Scope.inherits_shallow hfragments hacyclic) hstart job hjob).path_le

end Schema

end GraphQLEngine
