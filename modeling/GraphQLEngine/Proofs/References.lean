/-
Where the references of a built schema lead.

A schema refers to types by name: to its root types, to the types of fields and
arguments, and to the possible types of interfaces and unions.  In a schema that
a draft builds each of these names is registered, for a type of the kind that
its place demands (`SchemaDraft.linked_of_build`).  The index of possible types
takes its names from registered object types and from the members of unions only,
so it cannot add a name of another kind (`SchemaDraft.Lists.possibleIndex`).

Nothing is said here about the names that a document brings: the types of its
variables, and the type conditions of its fragments.
-/
import GraphQLEngine.Proofs.BuiltSchema
import GraphQLEngine.Proofs.Depth
import GraphQLEngine.Proofs.DraftViolations

namespace GraphQLEngine

variable {ω σ : Type}

/-- Every name within a schema leads to a type of the kind that its place demands. -/
structure Schema.Linked (schema : Schema ω σ) : Prop where
  query : ∃ type, schema.object? schema.queryType = some type
  mutation : ∀ name, schema.mutationType = some name → ∃ type, schema.object? name = some type
  field : ∀ definition, schema.Declares definition →
    ∃ type, schema.type? definition.type.innerName = some type
  argument : ∀ definition, schema.Declares definition → ∀ argument ∈ definition.arguments,
    ∃ type, schema.type? argument.2.type.innerName = some type ∧ type.isInput = true
  possible : ∀ abstractType, ∀ name ∈ (schema.possible.get? abstractType).getD [],
    ∃ type, schema.object? name = some type

namespace SchemaDraft

/-! ## The index of possible types -/

/-- All names that an index lists have a property. -/
def Lists (P : Name → Prop) (index : OrderedMap (List Name)) : Prop :=
  ∀ key, ∀ name ∈ (index.get? key).getD [], P name

namespace Lists

variable {P : Name → Prop} {index : OrderedMap (List Name)}

theorem insert (h : Lists P index) (key : Name) {names : List Name} (hnames : ∀ name ∈ names, P name) :
    Lists P (index.insert key names) := by
  intro key' name hmem
  rw [OrderedMap.get?_insert] at hmem
  split at hmem
  · exact hnames name hmem
  · exact h key' name hmem

theorem addPossible (h : Lists P index) (abstractType : Name) {object : Name} (hobject : P object) :
    Lists P (addPossible index abstractType object) := by
  refine h.insert abstractType ?_
  intro name hmem
  rcases mem_insertNew.mp hmem with hmem | rfl
  · exact h abstractType name hmem
  · exact hobject

/-- A type that is entered lists itself, if it is an object type, and its members, if it is a union. -/
theorem enterPossible (h : Lists P index) : ∀ {definition : TypeDefinition ω σ},
    (∀ t, definition = .object t → P t.name) → (∀ t, definition = .union t → ∀ m ∈ t.members, P m) →
    Lists P (enterPossible index definition)
  | .scalar _, _, _ => h
  | .enum _, _, _ => h
  | .interface t, _, _ => h.insert t.name (h t.name)
  | .object t, hobject, _ => by
      have hname := hobject t rfl
      rw [SchemaDraft.enterPossible]
      induction t.interfaces generalizing index with
      | nil => exact h
      | cons i rest ih => exact ih (h.addPossible i hname)
  | .union t, _, hunion => by
      have hmembers := hunion t rfl
      have hstart := h.insert t.name (h t.name)
      rw [SchemaDraft.enterPossible]
      generalize index.insert t.name _ = start at hstart
      generalize t.members = members at hmembers
      induction members generalizing start with
      | nil => exact hstart
      | cons m rest ih =>
          obtain ⟨hm, hrest⟩ := List.forall_mem_cons.mp hmembers
          exact ih _ (hstart.addPossible t.name hm) hrest

theorem foldl_enterPossible : ∀ {types : OrderedMap (TypeDefinition ω σ)}
    {index : OrderedMap (List Name)}, Lists P index →
    (∀ e ∈ types, ∀ t, e.2 = .object t → P t.name) →
    (∀ e ∈ types, ∀ t, e.2 = .union t → ∀ m ∈ t.members, P m) →
    Lists P (types.foldl (fun index t => SchemaDraft.enterPossible index t.2) index)
  | [], _, h, _, _ => h
  | e :: rest, index, h, hobjects, hunions => by
      obtain ⟨hobject, hobjects⟩ := List.forall_mem_cons.mp hobjects
      obtain ⟨hunion, hunions⟩ := List.forall_mem_cons.mp hunions
      have hfirst : Lists P (SchemaDraft.enterPossible index e.2) := h.enterPossible hobject hunion
      exact hfirst.foldl_enterPossible hobjects hunions

/-- The index lists object types and members of unions. -/
theorem possibleIndex {types : OrderedMap (TypeDefinition ω σ)}
    (hobjects : ∀ e ∈ types, ∀ t, e.2 = .object t → P t.name)
    (hunions : ∀ e ∈ types, ∀ t, e.2 = .union t → ∀ m ∈ t.members, P m) :
    Lists P (possibleIndex types) :=
  foldl_enterPossible (fun _ _ hmem => by cases hmem) hobjects hunions

end Lists

/-! ## References without a flaw -/

variable {draft : SchemaDraft ω σ} {schema : Schema ω σ}

/-- A reference that has no flaw leads to a type of the right kind. -/
theorem exists_of_not_referenceFlaw {fits : TypeDefinition ω σ → Prop} {name : Name}
    {missing : SchemaViolation} {unfit : TypeDefinition ω σ → SchemaViolation}
    (h : ∀ v, ¬ draft.ReferenceFlaw fits name missing unfit v) :
    ∃ type, draft.type? name = some type ∧ fits type := by
  cases htype : draft.type? name with
  | none => exact absurd (.missing htype) (h missing)
  | some type =>
      by_cases hfits : fits type
      · exact ⟨type, rfl, hfits⟩
      · exact absurd (.unfit htype hfits) (h (unfit type))

theorem not_flaw_of_build (h : draft.build = .ok schema) : ∀ site v, ¬ draft.Flaw site v := by
  intro site v hflaw
  rw [build_of_flaw hflaw] at h
  cases h

/-- The schema of a draft is what the draft yields. -/
theorem yields_of_build (h : draft.build = .ok schema) : draft.Yields schema := by
  obtain ⟨schema', hbuild, hyields⟩ := build_of_sound (not_flaw_of_build h)
  rw [h] at hbuild
  cases hbuild
  exact hyields

theorem type?_of_build (h : draft.build = .ok schema) (name : Name) :
    schema.type? name = draft.type? name := by
  rw [Schema.type?, types_of_build h, registered_get?]

/-- A definition of the draft itself, which is not ignored, has no flaw. -/
theorem not_typeFlaw_of_build (h : draft.build = .ok schema) {d : TypeDefinition ω σ}
    (hd : d ∈ draft.types) : ∀ site v, ¬ draft.TypeFlaw d site v := by
  have hsound := not_flaw_of_build h
  intro site v hflaw
  obtain ⟨i, hi⟩ := List.mem_iff_getElem?.mp hd
  have hnew : ¬ draft.Taken i d.name := fun htaken => hsound _ _ (.name hi (.repeated htaken))
  exact hsound _ _ (.type hi hnew hflaw)

/-- What is registered, and is not built in, is defined by the draft itself. -/
theorem mem_types_of_definitions {d : TypeDefinition ω σ} (hd : d ∈ draft.definitions)
    (hscalar : ¬ d.IsScalar) : d ∈ draft.types := by
  rcases List.mem_append.mp hd with hd | hd
  · obtain ⟨t, _, rfl⟩ := List.mem_map.mp hd
    exact absurd ⟨t, rfl⟩ hscalar
  · exact hd

theorem mem_types_of_object? (h : draft.build = .ok schema) {name : Name} {t : ObjectType ω σ}
    (ht : schema.object? name = some t) : .object t ∈ draft.types := by
  have htype := Schema.type?_of_object? ht
  rw [type?_of_build h] at htype
  refine mem_types_of_definitions (List.mem_of_find?_eq_some htype) ?_
  rintro ⟨_, heq⟩
  cases heq

/-- A field of an object type of a built schema has no flaw. -/
theorem exists_not_fieldFlaw (h : draft.build = .ok schema) {definition : FieldDefinition ω σ}
    (hdeclares : schema.Declares definition) :
    ∃ typeName fieldName, ∀ site v, ¬ draft.FieldFlaw typeName (fieldName, definition) site v := by
  obtain ⟨typeName, t, fieldName, ht, hfield⟩ := hdeclares
  obtain ⟨j, hj⟩ := List.mem_iff_getElem?.mp (OrderedMap.mem_of_get? hfield)
  refine ⟨t.name, fieldName, ?_⟩
  intro site v hflaw
  exact not_typeFlaw_of_build h (mem_types_of_object? h ht) _ _ (.objectField hj hflaw)

theorem object?_of_type? (h : draft.build = .ok schema) {name : Name}
    (ht : ∃ type, draft.type? name = some type ∧ type.IsObject) :
    ∃ type, schema.object? name = some type := by
  obtain ⟨_, ht, t, rfl⟩ := ht
  rw [← type?_of_build h] at ht
  exact ⟨t, by rw [Schema.object?, ht]⟩

/-- What a draft that builds defines itself is found by its name. -/
theorem type?_of_mem_types (h : draft.build = .ok schema) {d : TypeDefinition ω σ}
    (hd : d ∈ draft.types) : draft.type? d.name = some d := by
  obtain ⟨i, hi⟩ := List.mem_iff_getElem?.mp hd
  have hnew : ¬ draft.Taken i d.name := fun htaken =>
    not_flaw_of_build h _ _ (.name hi (.repeated htaken))
  obtain ⟨hlt, hget⟩ := List.getElem?_eq_some_iff.mp hi
  have hsplit : draft.types = draft.types.take i ++ d :: draft.types.drop (i + 1) := by
    rw [← hget, ← List.drop_eq_getElem_cons hlt, List.take_append_drop]
  refine List.find?_eq_some_iff_append.mpr ⟨beq_self_eq_true _,
    BuiltIn.scalars.map .scalar ++ draft.types.take i, draft.types.drop (i + 1), ?_, ?_⟩
  · rw [definitions, List.append_assoc, ← hsplit]
  · intro other hother
    have hne : other.name ≠ d.name := by
      intro heq
      rcases List.mem_append.mp hother with hother | hother
      · obtain ⟨t, ht, rfl⟩ := List.mem_map.mp hother
        exact hnew (.inl (List.mem_map.mpr ⟨t, ht, heq⟩))
      · exact hnew (.inr ⟨other, hother, heq⟩)
    rw [beq_eq_false_iff_ne.mpr hne]
    rfl

/-! ## The references of a built schema -/

theorem possible_of_build (h : draft.build = .ok schema) (abstractType : Name) :
    ∀ name ∈ (schema.possible.get? abstractType).getD [], ∃ type, schema.object? name = some type := by
  have hyields := yields_of_build h
  -- A registered type that is no scalar is one of the draft's own.
  have own : ∀ e ∈ schema.types, ¬ e.2.IsScalar → e.2 ∈ draft.types := by
    intro e he hscalar
    rw [hyields.types] at he
    obtain ⟨d, hd, rfl⟩ := List.mem_map.mp he
    exact mem_types_of_definitions hd hscalar
  rw [hyields.possible]
  refine Lists.possibleIndex ?_ ?_ abstractType
  · rintro ⟨key, _⟩ he t rfl
    have hmem := own _ he (by rintro ⟨_, heq⟩; cases heq)
    exact object?_of_type? h ⟨_, type?_of_mem_types h hmem, t, rfl⟩
  · rintro ⟨key, _⟩ he t rfl m hm
    have hmem := own _ he (by rintro ⟨_, heq⟩; cases heq)
    obtain ⟨j, hj⟩ := List.mem_iff_getElem?.mp hm
    have hflawless : ∀ v, ¬ draft.MemberFlaw t.name m v :=
      fun v hflaw => not_typeFlaw_of_build h hmem _ _ (.member hj hflaw)
    exact object?_of_type? h (exists_of_not_referenceFlaw hflawless)

/-- In the schema of a draft, all references lead where they should. -/
theorem linked_of_build (h : draft.build = .ok schema) : schema.Linked where
  query := by
    have hflawless : ∀ v, ¬ draft.RootFlaw .query schema.queryType v :=
      fun v hflaw => not_flaw_of_build h _ _ (.query (yields_of_build h).query hflaw)
    exact object?_of_type? h (exists_of_not_referenceFlaw hflawless)
  mutation := by
    intro name hname
    rw [(yields_of_build h).mutation] at hname
    have hflawless : ∀ v, ¬ draft.RootFlaw .mutation name v :=
      fun v hflaw => not_flaw_of_build h _ _ (.mutation hname hflaw)
    exact object?_of_type? h (exists_of_not_referenceFlaw hflawless)
  field := by
    intro definition hdeclares
    obtain ⟨typeName, fieldName, hsound⟩ := exists_not_fieldFlaw h hdeclares
    rw [type?_of_build h]
    exact Option.ne_none_iff_exists'.mp fun hnone => hsound _ _ (.type hnone)
  argument := by
    intro definition hdeclares argument hargument
    obtain ⟨typeName, fieldName, hsound⟩ := exists_not_fieldFlaw h hdeclares
    obtain ⟨k, hk⟩ := List.mem_iff_getElem?.mp hargument
    have hflawless : ∀ v, ¬ draft.ArgumentFlaw typeName fieldName argument v :=
      fun v hflaw => hsound _ _ (.argument hk hflaw)
    obtain ⟨type, htype, hinput⟩ := exists_of_not_referenceFlaw hflawless
    refine ⟨type, (type?_of_build h _).trans htype, ?_⟩
    rcases hinput with ⟨_, rfl⟩ | ⟨_, rfl⟩
    · rfl
    · rfl
  possible := possible_of_build h

end SchemaDraft

end GraphQLEngine
