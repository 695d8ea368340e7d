/-
A query that is executed on its own data gives them back.

Where a schema only reads JSON data (`Schema.ReadsData`), a response holds for each
field a value that would be read there again: a scalar serializes what it has
serialized as itself, a null has gone on to a place that admits it, and an object
holds the fields that were asked for under their own names, among them the name of its
type wherever that has to be told (`Schema.NamesTypes`).  So every value that is left
at a place is completed to itself (`Scope.reproduces_eventual?`, by induction on the
levels of the work), whatever was there before and however many errors were found.

The type of a field is the one that the object type declares on which it is executed.
What an object may declare in place of its interface is not restricted here.
-/
import GraphQLEngine.Proofs.AbstractTypes
import GraphQLEngine.Proofs.Determinacy
import GraphQLEngine.Proofs.NullPropagation
import GraphQLEngine.Proofs.SingleRound
import GraphQLEngine.Proofs.VariableValues

namespace GraphQLEngine

variable {ω σ : Type}

/-! ## Schemas that read data, and queries that name types -/

/-- A schema without resolvers, arguments and tests of types, whose own scalars take every value as it
is. -/
structure Schema.ReadsData (schema : Schema ω σ) : Prop where
  unresolved : schema.Unresolved
  arguments : ∀ typeName type fieldName definition, schema.object? typeName = some type →
    type.fields.get? fieldName = some definition → definition.arguments = []
  untested : ∀ name type, schema.object? name = some type → type.isTypeOf? = none
  unnamed : ∀ name resolveType?, schema.Abstract name resolveType? → resolveType? = none
  scalars : ∀ name t, schema.type? name = some (.scalar t) → t ∈ BuiltIn.scalars ∨ t.serialize = .ok

/-- The selections that an operation can come to on objects of a type, whatever the data are. -/
inductive Schema.Meets (schema : Schema ω σ) (fragments : OrderedMap Fragment) (operation : Operation) :
    ObjectType ω σ → Selection → Prop
  | operation {t : ObjectType ω σ} {s : Selection} :
      schema.root? operation.kind = some t → s ∈ operation.selections →
      Meets schema fragments operation t s
  | inline {t : ObjectType ω σ} {i : InlineFragment Selection} {s : Selection} :
      Meets schema fragments operation t (.inlineFragment i) →
      (∀ condition ∈ i.typeCondition, schema.fragmentApplies t.name condition = true) →
      s ∈ i.selections → Meets schema fragments operation t s
  | spread {t : ObjectType ω σ} {p : FragmentSpread} {fragment : Fragment} {s : Selection} :
      Meets schema fragments operation t (.spread p) → fragments.get? p.fragment = some fragment →
      schema.fragmentApplies t.name fragment.typeCondition = true →
      s ∈ fragment.selections → Meets schema fragments operation t s
  | field {t u : ObjectType ω σ} {f : Field} {definition : FieldDefinition ω σ} {s : Selection} :
      Meets schema fragments operation t (.field f) → t.fields.get? f.name = some definition →
      schema.Concrete definition.type.innerName u → s ∈ f.selections →
      Meets schema fragments operation u s

/-- No directive can leave a selection out. -/
def Selection.Unconditional (s : Selection) : Prop :=
  directive? s.directives "skip" = none ∧ directive? s.directives "include" = none

/-- Selections ask for the name of the type, in any case and by their own members. -/
def Selection.NameType (ss : List Selection) : Prop :=
  ∃ f : Field, .field f ∈ ss ∧ f.name = "__typename" ∧ (Selection.field f).Unconditional

/-- An operation without aliases that asks for the name of the type wherever an interface or a union is
declared. -/
structure Schema.NamesTypes (schema : Schema ω σ) (fragments : OrderedMap Fragment)
    (operation : Operation) : Prop where
  unaliased : ∀ t f, schema.Meets fragments operation t (.field f) → f.alias? = none
  typename : ∀ t f definition resolveType?, schema.Meets fragments operation t (.field f) →
    f.name ≠ "__typename" → t.fields.get? f.name = some definition →
    schema.Abstract definition.type.innerName resolveType? → Selection.NameType f.selections

theorem Selection.Unconditional.isIncluded {s : Selection} (h : s.Unconditional)
    (bindings : JsonObject) : s.isIncluded bindings = true := by
  simp [Selection.isIncluded, Selection.condition?, h.1, h.2]

/-- A definition that only reads data: an object type without resolvers, arguments and a test, an
abstract type without a type resolver, or a scalar that takes every value as it is. -/
def TypeDefinition.ReadsData : TypeDefinition ω σ → Prop
  | .scalar t => t.serialize = .ok
  | .object t => t.isTypeOf? = none ∧ ∀ f ∈ t.fields, f.2.resolver? = none ∧ f.2.arguments = []
  | .interface t => t.resolveType? = none
  | .union t => t.resolveType? = none
  | .enum _ => True

/-- A draft whose definitions only read data builds a schema that does. -/
theorem SchemaDraft.readsData_of_build {draft : SchemaDraft ω σ} {schema : Schema ω σ}
    (hb : draft.build = .ok schema) (h : ∀ d ∈ draft.types, d.ReadsData) : schema.ReadsData := by
  have defined : ∀ name d, schema.type? name = some d →
      d.ReadsData ∨ ∃ t ∈ BuiltIn.scalars, d = .scalar t := by
    intro name d hd
    rw [type?_of_build hb] at hd
    rcases List.mem_append.mp (List.mem_of_find?_eq_some hd) with hscalar | hown
    · obtain ⟨t, ht, rfl⟩ := List.mem_map.mp hscalar
      exact .inr ⟨t, ht, rfl⟩
    · exact .inl (h d hown)
  have object : ∀ name t, schema.object? name = some t → (TypeDefinition.object t).ReadsData := by
    intro name t ht
    rcases defined name _ (Schema.type?_of_object? ht) with hreads | ⟨_, _, heq⟩
    · exact hreads
    · cases heq
  refine ⟨?_, ?_, fun name t ht => (object name t ht).1, ?_, ?_⟩
  · intro typeName t fieldName definition ht hfield
    exact ((object typeName t ht).2 _ (OrderedMap.mem_of_get? hfield)).1
  · intro typeName t fieldName definition ht hfield
    exact ((object typeName t ht).2 _ (OrderedMap.mem_of_get? hfield)).2
  · intro name resolveType? habstract
    cases habstract with
    | interface ht =>
        rcases defined name _ ht with hreads | ⟨_, _, heq⟩
        · exact hreads
        · cases heq
    | union ht =>
        rcases defined name _ ht with hreads | ⟨_, _, heq⟩
        · exact hreads
        · cases heq
  · intro name t ht
    rcases defined name _ ht with hreads | ⟨_, hmem, heq⟩
    · exact .inr hreads
    · cases heq
      exact .inl hmem

/-! ## Values that are read again -/

/-- A scalar serializes what it has serialized as itself. -/
def ScalarType.SerializesOnce (t : ScalarType) : Prop :=
  ∀ j k, t.serialize j = .ok k → t.serialize k = .ok k

/-- The built-in scalars have one coercion for inputs and results, and null is no result of it. -/
theorem BuiltIn.serializesOnce : ∀ t ∈ scalars, t.SerializesOnce := by
  have coerced : ∀ name description coerce, (∀ message, coerce .null ≠ .ok message) →
      (scalar name description coerce).ParsesOnce →
      (scalar name description coerce).SerializesOnce := by
    intro name description coerce hnull honce j k hserialize
    refine (honce j k ?_ hserialize).2
    rintro rfl
    exact hnull k hserialize
  have refuses : ∀ {message : String} (k : Json), (.error message : Except String Json) ≠ .ok k := by
    intro message k h
    cases h
  have once := parsesOnce
  simp only [scalars, List.forall_mem_cons] at once ⊢
  obtain ⟨hint, hfloat, hstring, hboolean, hid, -⟩ := once
  exact ⟨coerced _ _ _ refuses hint, coerced _ _ _ refuses hfloat, coerced _ _ _ refuses hstring,
    coerced _ _ _ refuses hboolean, coerced _ _ _ refuses hid, fun _ h => absurd h List.not_mem_nil⟩

theorem Schema.ReadsData.serializesOnce {schema : Schema ω σ} (h : schema.ReadsData) {name : Name}
    {t : ScalarType} (ht : schema.type? name = some (.scalar t)) : t.SerializesOnce := by
  rcases h.scalars name t ht with hmem | hpass
  · exact BuiltIn.serializesOnce t hmem
  · intro j k hserialize
    rw [hpass]

/-- The outcomes of children that have values and no errors. -/
def flawless (values : List (PathSegment × Json)) : List (PathSegment × Outcome) :=
  values.map fun v => (v.1, ⟨some v.2, []⟩)

theorem allValues_flawless : ∀ values, allValues (flawless values) = some values
  | [] => rfl
  | (_, j) :: rest => allValues_cons.mpr ⟨j, rest, rfl, allValues_flawless rest, rfl⟩

theorem Shape.join_flawless (shape : Shape ω σ) (values : List (PathSegment × Json)) :
    shape.join (flawless values) = ⟨some (shape.assemble values), []⟩ := by
  have herrors : (flawless values).flatMap (fun o => o.2.errors) = [] := by
    rw [flawless, List.flatMap_map, List.flatMap_eq_nil_iff]
    exact fun _ _ => rfl
  rw [join, allValues_flawless, herrors, Option.map_some]

namespace Child

variable {f : Task ω σ → Option Outcome}

theorem mem_outcomesBy {position : Position} {t : Task ω σ} :
    ∀ {children : List (Child ω σ)} {os : List (PathSegment × Outcome)},
      outcomesBy f children = some os → .mk position t ∈ children →
      ∃ o, f t = some o ∧ (position.segment, o.settle position.type) ∈ os
  | .absent _ :: rest, os, h, hmem => by
      rcases List.mem_cons.mp hmem with heq | hmem
      · cases heq
      · exact mem_outcomesBy (show outcomesBy f rest = some os from h) hmem
  | .mk _ _ :: rest, os, h, hmem => by
      obtain ⟨o, os', ho, hos', rfl⟩ := outcomesBy_mk_cons.mp h
      rcases List.mem_cons.mp hmem with heq | hmem
      · cases heq
        exact ⟨o, ho, List.mem_cons_self⟩
      · obtain ⟨o', ho', hmem'⟩ := mem_outcomesBy hos' hmem
        exact ⟨o', ho', List.mem_cons_of_mem _ hmem'⟩

end Child

/-! ## The second completion of a value -/

namespace Scope

variable {scope : Scope ω σ} {group : FieldGroup} {type : TypeRef} {path : Path}

theorem completeAnswer_null (h : type.isNonNull = false) :
    scope.completeAnswer group type path (.ok (.leaf .null)) = .value .null := by
  cases type with
  | named name => rfl
  | list item => rfl
  | nonNullNamed name => cases h
  | nonNullList item => cases h

theorem completeAnswer_leaf (hitem : type.item? = none) {j : Json} (hj : j ≠ .null) :
    scope.completeAnswer group type path (.ok (.leaf j)) =
      completedTask path group (scope.completeLeaf group type type.innerName path j) := by
  have hnull : ¬ j.isNull = true := fun h => hj (Json.isNull_iff.mp h)
  cases type with
  | named name => simp [completeAnswer, complete, completeNamed, hnull, TypeRef.innerName]
  | nonNullNamed name => simp [completeAnswer, complete, completeNamed, hnull, TypeRef.innerName]
  | list item => cases hitem
  | nonNullList item => cases hitem

theorem leafTask_of_ne_null {j : Json} (hj : j ≠ .null) :
    (leafTask type j : Except FieldFault (Task ω σ)) = .ok (.value j) := by
  have hnull : ¬ j.isNull = true := fun h => hj (Json.isNull_iff.mp h)
  simp [leafTask, hnull]

/-- What a scalar serializes as itself is completed to itself. -/
theorem completeAnswer_scalar (hitem : type.item? = none) {t : ScalarType}
    (ht : scope.schema.type? type.innerName = some (.scalar t)) {j : Json} (hj : t.serialize j = .ok j)
    (hnull : j = .null → type.isNonNull = false) :
    scope.completeAnswer group type path (.ok (.leaf j)) = .value j := by
  by_cases h : j = .null
  · subst h
    exact completeAnswer_null (hnull rfl)
  · have hresult : scope.completeLeaf group type type.innerName path j = .ok (.value j) := by
      simp only [completeLeaf, Schema.completeLeaf, ht, ScalarType.complete, hj]
      exact leafTask_of_ne_null h
    rw [completeAnswer_leaf hitem h, hresult]
    rfl

theorem completeAnswer_enum (hitem : type.item? = none) {t : EnumType}
    (ht : scope.schema.type? type.innerName = some (.enum t)) {j : Json} (hj : t.has j = true) :
    scope.completeAnswer group type path (.ok (.leaf j)) = .value j := by
  have hne : j ≠ .null := by
    rintro rfl
    cases hj
  have hresult : scope.completeLeaf group type type.innerName path j = .ok (.value j) := by
    simp only [completeLeaf, Schema.completeLeaf, ht, EnumType.complete, hj, if_true]
    exact leafTask_of_ne_null hne
  rw [completeAnswer_leaf hitem hne, hresult]
  rfl

theorem completeAnswer_object (hitem : type.item? = none) {entries : JsonObject}
    {objectType : ObjectType ω σ}
    (h : scope.schema.objectTypeOf type.innerName (.json entries) = .ok objectType) :
    scope.completeAnswer group type path (.ok (.leaf (.obj entries))) =
      scope.objectTask ⟨objectType, .json entries, path⟩ group.selections := by
  have hobject : scope.completeLeaf group type type.innerName path (.obj entries) =
      scope.completeObject group type.innerName path (.json entries) := by
    rw [completeLeaf]
    rcases Schema.objectTypeOf_cases h with ht | ⟨⟨i, ht⟩ | ⟨u, ht⟩, _⟩ <;> rw [ht]
  rw [completeAnswer_leaf hitem (show Json.obj entries ≠ .null by rintro ⟨⟩), hobject, completeObject, h]
  rfl

theorem completeAnswer_list {item : TypeRef} (hitem : type.item? = some item) (items : List Json) :
    scope.completeAnswer group type path (.ok (.leaf (.arr items))) =
      scope.listTask group item path (items.map fun j => .ok (.leaf j)) := by
  cases type with
  | list _ => cases hitem; rfl
  | nonNullList _ => cases hitem; rfl
  | named _ => cases hitem
  | nonNullNamed _ => cases hitem

end Scope

/-- JSON data that name the type which was found are of that type again. -/
theorem Schema.ReadsData.objectTypeOf_again {draft : SchemaDraft ω σ} {schema : Schema ω σ}
    (h : schema.ReadsData) (hb : draft.build = .ok schema) {name : Name} {value : ObjectValue ω}
    {t : ObjectType ω σ} (hfound : schema.objectTypeOf name value = .ok t) {entries : JsonObject}
    (hnames : ∀ resolveType?, schema.Abstract name resolveType? →
      OrderedMap.get? entries "__typename" = some (.str t.name)) :
    schema.objectTypeOf name (.json entries) = .ok t := by
  have again : ∀ resolveType?, schema.Abstract name resolveType? →
      schema.objectTypeOf name (.json entries) = .ok t := by
    intro resolveType? habstract
    have hresolves := (habstract.objectTypeOf_eq_ok_iff hb).mp hfound
    obtain rfl := h.unnamed name resolveType? habstract
    refine (habstract.objectTypeOf_eq_ok_iff hb).mpr (.typename hresolves.isPossible ?_
      ⟨entries, rfl, hnames none habstract⟩)
    rintro u hpossible ⟨test, htest, -⟩
    rw [h.untested u.name u hpossible.registered] at htest
    cases htest
  rcases objectTypeOf_cases hfound with ht | ⟨⟨i, ht⟩ | ⟨u, ht⟩, _⟩
  · have huntested := h.untested name t (by rw [object?, ht])
    simp only [objectTypeOf, ht, huntested, Option.map_none]
    rfl
  · exact again _ (.interface ht)
  · exact again _ (.union ht)

/-! ## What is collected on an object -/

namespace Scope

variable {scope : Scope ω σ} {operation : Operation} {t : ObjectType ω σ} {ss : List Selection}

/-- A field that no directive leaves out is among those that its selections come to. -/
theorem Flattens.mem_of_unconditional {objectType : Name} {f : Field} {v v' : List Name}
    {fs : List Field} (h : scope.Flattens objectType v ss v' fs)
    (hf : (Selection.field f).Unconditional) (hmem : .field f ∈ ss) : f ∈ fs := by
  have hincluded := hf.isIncluded scope.bindings
  induction h with
  | nil => cases hmem
  | excluded hexcluded _ ih =>
      rcases List.mem_cons.mp hmem with rfl | hmem
      · rw [hincluded] at hexcluded
        cases hexcluded
      · exact ih hmem
  | field _ _ ih =>
      rcases List.mem_cons.mp hmem with heq | hmem
      · cases heq
        exact List.mem_cons_self
      · exact List.mem_cons_of_mem _ (ih hmem)
  | met _ _ _ ih => exact ih ((List.mem_cons.mp hmem).resolve_left nofun)
  | barred _ _ _ _ ih => exact ih ((List.mem_cons.mp hmem).resolve_left nofun)
  | spread _ _ _ _ _ _ ih =>
      exact List.mem_append_right _ (ih ((List.mem_cons.mp hmem).resolve_left nofun))
  | foreign _ _ _ ih => exact ih ((List.mem_cons.mp hmem).resolve_left nofun)
  | inline _ _ _ _ _ ih =>
      exact List.mem_append_right _ (ih ((List.mem_cons.mp hmem).resolve_left nofun))

/-- The fields that selections come to are met where the selections are. -/
theorem Flattens.meets {v v' : List Name} {fs : List Field} (h : scope.Flattens t.name v ss v' fs)
    (hss : ∀ s ∈ ss, scope.schema.Meets scope.fragments operation t s) :
    ∀ f ∈ fs, scope.schema.Meets scope.fragments operation t (.field f) := by
  induction h with
  | nil => exact nofun
  | excluded _ _ ih => exact ih (List.forall_mem_cons.mp hss).2
  | field _ _ ih =>
      obtain ⟨hfield, hrest⟩ := List.forall_mem_cons.mp hss
      exact List.forall_mem_cons.mpr ⟨hfield, ih hrest⟩
  | met _ _ _ ih => exact ih (List.forall_mem_cons.mp hss).2
  | barred _ _ _ _ ih => exact ih (List.forall_mem_cons.mp hss).2
  | @spread _ _ _ p _ selections _ _ _ _ hexpansion _ _ ih₁ ih₂ =>
      obtain ⟨hspread, hrest⟩ := List.forall_mem_cons.mp hss
      rw [expansion?] at hexpansion
      split at hexpansion
      · cases hexpansion
      · rename_i fragment hget
        split at hexpansion
        · rename_i happlies
          cases hexpansion
          exact List.forall_mem_append.mpr ⟨ih₁ fun s hs => .spread hspread hget happlies hs, ih₂ hrest⟩
        · cases hexpansion
  | foreign _ _ _ ih => exact ih (List.forall_mem_cons.mp hss).2
  | @inline _ _ _ i _ _ _ _ happlies _ _ ih₁ ih₂ =>
      obtain ⟨hinline, hrest⟩ := List.forall_mem_cons.mp hss
      have hconditions : ∀ condition ∈ i.typeCondition,
          scope.schema.fragmentApplies t.name condition = true := by
        intro condition hcondition
        rw [Option.mem_def.mp hcondition] at happlies
        exact happlies
      exact List.forall_mem_append.mpr ⟨ih₁ fun s hs => .inline hinline hconditions hs, ih₂ hrest⟩

/-- The fields of a group are met, and have its key. -/
theorem meets_of_mem_collect (hss : ∀ s ∈ ss, scope.schema.Meets scope.fragments operation t s)
    {g : FieldGroup} (hg : g ∈ scope.collect t.name ss) :
    ∀ f ∈ g.fields, scope.schema.Meets scope.fragments operation t (.field f) ∧
      f.responseKey = g.key := by
  obtain ⟨v, fs, hflattens, hcollect⟩ := scope.collect_flattens t.name ss
  have hgrouped : GroupedBy ([] ++ fs) (scope.collect t.name ss) :=
    hcollect ▸ groupedBy_nil.groupFields List.nodup_nil
  intro f hf
  rw [hgrouped.members g hg, List.nil_append, List.mem_filter] at hf
  exact ⟨hflattens.meets hss f hf.1, beq_iff_eq.mp hf.2⟩

/-- Under its response key a field is collected, unless a directive can leave it out. -/
theorem mem_groupKeys_of_unconditional {objectType : Name} {f : Field}
    (hf : (Selection.field f).Unconditional) (hmem : .field f ∈ ss) :
    f.responseKey ∈ groupKeys (scope.collect objectType ss) := by
  obtain ⟨v, fs, hflattens, hcollect⟩ := scope.collect_flattens objectType ss
  rw [hcollect]
  exact mem_groupKeys_groupFields.mpr (.inr ⟨f, hflattens.mem_of_unconditional hf hmem, rfl⟩)

/-- What is selected where a type is declared: selections that can be met on its object types, with the
name of the type if that has to be told. -/
structure Selects (scope : Scope ω σ) (operation : Operation) (group : FieldGroup) (type : TypeRef) :
    Prop where
  meets : ∀ u, scope.schema.Concrete type.innerName u → ∀ s ∈ group.selections,
    scope.schema.Meets scope.fragments operation u s
  typename : ∀ resolveType?, scope.schema.Abstract type.innerName resolveType? →
    Selection.NameType group.selections

theorem Selects.item {group : FieldGroup} {type item : TypeRef}
    (h : scope.Selects operation group type) (hitem : type.item? = some item) :
    scope.Selects operation group item := by
  have hname : type.innerName = item.innerName := by
    cases type with
    | list _ => cases hitem; rfl
    | nonNullList _ => cases hitem; rfl
    | named _ => cases hitem
    | nonNullNamed _ => cases hitem
  exact ⟨hname ▸ h.meets, hname ▸ h.typename⟩

variable (hnames : scope.schema.NamesTypes scope.fragments operation)

include hnames in
/-- Without aliases a group has the key of its fields' name. -/
theorem name_of_mem_collect (hss : ∀ s ∈ ss, scope.schema.Meets scope.fragments operation t s)
    {g : FieldGroup} (hg : g ∈ scope.collect t.name ss) : ∀ f ∈ g.fields, f.name = g.key := by
  intro f hf
  obtain ⟨hmet, hkey⟩ := meets_of_mem_collect hss hg f hf
  rw [← hkey, FieldSelection.responseKey, hnames.unaliased t f hmet]
  rfl

include hnames in
theorem selects_of_mem_collect (hss : ∀ s ∈ ss, scope.schema.Meets scope.fragments operation t s)
    {g : FieldGroup} (hg : g ∈ scope.collect t.name ss) (hn : g.first.name ≠ "__typename")
    {definition : FieldDefinition ω σ} (hd : t.fields.get? g.first.name = some definition) :
    scope.Selects operation g definition.type := by
  have hfirst : g.first ∈ g.fields := List.mem_cons_self
  have hname := name_of_mem_collect hnames hss hg
  refine ⟨?_, ?_⟩
  · intro u hu s hs
    obtain ⟨f, hf, hs⟩ := List.mem_flatMap.mp hs
    have hdf : t.fields.get? f.name = some definition := by
      rw [hname f hf, ← hname g.first hfirst, hd]
    exact .field (meets_of_mem_collect hss hg f hf).1 hdf hu hs
  · intro resolveType? habstract
    obtain ⟨f, hf, hrest⟩ := hnames.typename t g.first definition resolveType?
      (meets_of_mem_collect hss hg g.first hfirst).1 hn hd habstract
    exact ⟨f, List.mem_flatMap.mpr ⟨g.first, hfirst, hf⟩, hrest⟩

/-! ## Children that are read again -/

/-- What a job comes to is read again as it is: its place then comes to the same value, without
errors. -/
structure Reproduces (scope : Scope ω σ) (operation : Operation) (f : Task ω σ → Option Outcome) :
    Prop where
  value : ∀ j, f (.value j) = some ⟨some j, []⟩
  item : ∀ {group type path answer o j} (path' : Path), scope.Selects operation group type →
    f (.unstarted (.item group type path answer)) = some o → (o.settle type).value = some j →
    f (.unstarted (.item group type path' (.ok (.leaf j)))) = some ⟨some j, []⟩
  field : ∀ {t : ObjectType ω σ} {value path group definition o j} {entries : JsonObject}
    (path' : Path), scope.Selects operation group definition.type → definition.resolver? = none →
    definition.arguments = [] →
    f (.unstarted (.field ⟨t, value, path⟩ group definition)) = some o →
    (o.settle definition.type).value = some j →
    OrderedMap.get? entries group.first.name = some j →
    f (.unstarted (.field ⟨t, .json entries, path'⟩ group definition)) = some ⟨some j, []⟩

variable {f : Task ω σ → Option Outcome}

theorem Reproduces.outcomesBy_itemChildren (h : scope.Reproduces operation f) {group : FieldGroup}
    {item : TypeRef} {path : Path} (path' : Path) (hselects : scope.Selects operation group item) :
    ∀ {items : List (Except ResolverFailure (Resolved ω))} {i : Nat}
      {os : List (PathSegment × Outcome)} {values : List (PathSegment × Json)},
      Child.outcomesBy f (itemChildren group item path i items) = some os →
      allValues os = some values →
      Child.outcomesBy f (itemChildren group item path' i (values.map fun v => .ok (.leaf v.2))) =
        some (flawless values) := by
  intro items
  induction items with
  | nil =>
      intro i os values hos hvalues
      cases hos
      cases hvalues
      rfl
  | cons answer rest ih =>
      intro i os values hos hvalues
      obtain ⟨o, os', ho, hrest, rfl⟩ := Child.outcomesBy_mk_cons.mp hos
      obtain ⟨j, js, hj, hjs, rfl⟩ := allValues_cons.mp hvalues
      exact Child.outcomesBy_mk_cons.mpr
        ⟨_, flawless js, h.item _ hselects ho hj, ih hrest hjs, rfl⟩

include hnames in
theorem Reproduces.outcomesBy_fieldChildren (h : scope.Reproduces operation f)
    (hdata : scope.schema.ReadsData) {name : Name} (ht : scope.schema.object? name = some t)
    (hss : ∀ s ∈ ss, scope.schema.Meets scope.fragments operation t s) {value : ObjectValue ω}
    {path : Path} (path' : Path) {entries : JsonObject} :
    ∀ {groups : List FieldGroup} {os : List (PathSegment × Outcome)}
      {values : List (PathSegment × Json)}, groups ⊆ scope.collect t.name ss →
      Child.outcomesBy f (groups.map (fieldChild ⟨t, value, path⟩)) = some os →
      allValues os = some values →
      (∀ key j, (.key key, j) ∈ values → OrderedMap.get? entries key = some j) →
      Child.outcomesBy f (groups.map (fieldChild ⟨t, .json entries, path'⟩)) =
        some (flawless values) := by
  intro groups
  induction groups with
  | nil =>
      intro os values _ hos hvalues _
      cases hos
      cases hvalues
      rfl
  | cons g rest ih =>
      intro os values hsub hos hvalues hentries
      obtain ⟨hg, hrest⟩ := List.cons_subset.mp hsub
      rw [List.map_cons] at hos ⊢
      by_cases hn : g.first.name = "__typename"
      · rw [fieldChild_typename hn] at hos ⊢
        obtain ⟨o, os', ho, hos', rfl⟩ := Child.outcomesBy_mk_cons.mp hos
        rw [h.value] at ho
        cases ho
        obtain ⟨j, js, hj, hjs, rfl⟩ := allValues_cons.mp hvalues
        cases hj
        exact Child.outcomesBy_mk_cons.mpr ⟨_, flawless js, h.value _,
          ih hrest hos' hjs fun key j hmem => hentries key j (List.mem_cons_of_mem _ hmem), rfl⟩
      · match hd : t.fields.get? g.first.name with
        | none =>
            rw [fieldChild_absent hn hd] at hos ⊢
            exact ih hrest hos hvalues hentries
        | some definition =>
            rw [fieldChild_field hn hd] at hos ⊢
            obtain ⟨o, os', ho, hos', rfl⟩ := Child.outcomesBy_mk_cons.mp hos
            obtain ⟨j, js, hj, hjs, rfl⟩ := allValues_cons.mp hvalues
            have hentry : OrderedMap.get? entries g.first.name = some j := by
              rw [name_of_mem_collect hnames hss hg g.first List.mem_cons_self]
              exact hentries g.key j List.mem_cons_self
            have hfield := h.field path' (selects_of_mem_collect hnames hss hg hn hd)
              (hdata.unresolved name t g.first.name definition ht hd)
              (hdata.arguments name t g.first.name definition ht hd) ho hj hentry
            exact Child.outcomesBy_mk_cons.mpr ⟨_, flawless js, hfield,
              ih hrest hos' hjs fun key j hmem => hentries key j (List.mem_cons_of_mem _ hmem), rfl⟩

include hnames in
/-- What an object comes to is, read as JSON data, an object that comes to the same. -/
theorem Reproduces.outcomesBy_objectTask (h : scope.Reproduces operation f)
    (hdata : scope.schema.ReadsData) {name : Name} (ht : scope.schema.object? name = some t)
    (hss : ∀ s ∈ ss, scope.schema.Meets scope.fragments operation t s) {value : ObjectValue ω}
    {path : Path} (path' : Path) {os : List (PathSegment × Outcome)}
    {values : List (PathSegment × Json)} {entries : JsonObject}
    (hos : Child.outcomesBy f (scope.fieldChildren ⟨t, value, path⟩ ss) = some os)
    (hvalues : allValues os = some values)
    (hentries : entries = values.map fun v => (v.1.text, v.2)) :
    (scope.objectTask ⟨t, .json entries, path'⟩ ss).outcomeBy f = some ⟨some (.obj entries), []⟩ ∧
      (Selection.NameType ss → OrderedMap.get? entries "__typename" = some (.str t.name)) := by
  have hsegments : values.map Prod.fst =
      (scope.fieldChildren ⟨t, value, path⟩ ss).filterMap Child.segment? :=
    (allValues_eq_some hvalues).1.trans (Child.segments_of_outcomesBy hos)
  obtain ⟨hnodup, hkeys⟩ := scope.fits_fieldChildren ⟨t, value, path⟩ ss
  rw [← hsegments] at hnodup hkeys
  have hget : ∀ key j, (.key key, j) ∈ values → OrderedMap.get? entries key = some j :=
    fun key j hmem => hentries ▸ OrderedMap.get?_of_segments hnodup hkeys hmem
  refine ⟨?_, ?_⟩
  · have hagain : Child.outcomesBy f (scope.fieldChildren ⟨t, .json entries, path'⟩ ss) =
        some (flawless values) :=
      h.outcomesBy_fieldChildren hnames hdata ht hss path' (List.Subset.refl _) hos hvalues hget
    rw [objectTask, Task.outcomeBy, hagain, Option.map_some, Shape.join_flawless, Shape.assemble,
      ← hentries]
  · rintro ⟨g, hmem, hname, hunconditional⟩
    have hkey : g.responseKey = "__typename" := by
      rw [FieldSelection.responseKey, hnames.unaliased t g (hss _ hmem)]
      exact hname
    -- The group of the name has a child whose value is there from the beginning.
    have hcollected : g.responseKey ∈ groupKeys (scope.collect t.name ss) :=
      mem_groupKeys_of_unconditional hunconditional hmem
    obtain ⟨group, hgroup, hgroupKey⟩ := List.mem_map.mp hcollected
    have hfirst : group.first.name = "__typename" := by
      rw [name_of_mem_collect hnames hss hgroup group.first List.mem_cons_self, hgroupKey, hkey]
    have hchild : fieldChild ⟨t, value, path⟩ group ∈ scope.fieldChildren ⟨t, value, path⟩ ss :=
      List.mem_map_of_mem hgroup
    rw [fieldChild_typename hfirst, hgroupKey, hkey] at hchild
    obtain ⟨o, ho, hin⟩ := Child.mem_outcomesBy hos hchild
    rw [h.value] at ho
    cases ho
    obtain ⟨j, hj, hvalue⟩ := (allValues_eq_some hvalues).2 _ _ hin
    cases hj
    exact hget _ _ hvalue

/-! ## Every level -/

section Levels

variable {draft : SchemaDraft ω σ} (hb : draft.build = .ok scope.schema)
  (hdata : scope.schema.ReadsData)

include hnames hb hdata in
/-- If its jobs are read again as they are, so is what an answer is completed to. -/
theorem Reproduces.completed (h : scope.Reproduces operation f) {group : FieldGroup} {type : TypeRef}
    {path : Path} {answer : Except ResolverFailure (Resolved ω)} {o : Outcome} {j : Json} (path' : Path)
    (hselects : scope.Selects operation group type)
    (ho : (scope.completeAnswer group type path answer).outcomeBy f = some o)
    (hj : (o.settle type).value = some j) :
    (scope.completeAnswer group type path' (.ok (.leaf j))).outcomeBy f = some ⟨some j, []⟩ := by
  -- A null that stays here is read again as null.
  have null : type.isNonNull = false → j = .null →
      (scope.completeAnswer group type path' (.ok (.leaf j))).outcomeBy f = some ⟨some j, []⟩ := by
    rintro hnullable rfl
    rw [completeAnswer_null hnullable]
    rfl
  have hcompletes := scope.completes_completeAnswer group type path answer
  generalize scope.completeAnswer group type path answer = task at hcompletes ho
  rcases Outcome.settle_value_some.mp hj with hvalue | ⟨_, hnullable, hnull⟩
  · cases hcompletes with
    | failed fault =>
        cases ho
        cases hvalue
    | null hnullable =>
        cases ho
        cases hvalue
        exact null hnullable rfl
    | scalar hitem ht hserialize hnull =>
        cases ho
        cases hvalue
        rw [completeAnswer_scalar hitem ht (hdata.serializesOnce ht _ _ hserialize) hnull]
        rfl
    | enum hitem ht hhas =>
        cases ho
        cases hvalue
        rw [completeAnswer_enum hitem ht hhas]
        rfl
    | @object _ value objectType hitem _ hfound =>
        obtain ⟨os, hos, rfl⟩ := Option.map_eq_some_iff.mp ho
        obtain ⟨values, hvalues, rfl⟩ := Option.map_eq_some_iff.mp hvalue
        obtain ⟨name, hname⟩ := Schema.exists_object?_of_objectTypeOf hfound
        have hconcrete := Schema.objectTypeOf_concrete (SchemaDraft.named_of_build hb) hfound
        obtain ⟨hagain, htypename⟩ := h.outcomesBy_objectTask hnames hdata hname
          (hselects.meets objectType hconcrete) path' hos hvalues rfl
        have hfound' := hdata.objectTypeOf_again hb hfound
          fun resolveType? habstract => htypename (hselects.typename resolveType? habstract)
        exact (congrArg (Task.outcomeBy f) (completeAnswer_object hitem hfound')).trans hagain
    | @list _ item items hitem _ =>
        obtain ⟨os, hos, rfl⟩ := Option.map_eq_some_iff.mp ho
        obtain ⟨values, hvalues, rfl⟩ := Option.map_eq_some_iff.mp hvalue
        have hagain := h.outcomesBy_itemChildren path' (hselects.item hitem) hos hvalues
        rw [Shape.assemble, completeAnswer_list hitem, List.map_map, listTask, Task.outcomeBy]
        show (Child.outcomesBy f (itemChildren group item path' 0
          (values.map fun v => .ok (.leaf v.2)))).map _ = _
        rw [hagain, Option.map_some, Shape.join_flawless, Shape.assemble]
  · exact null hnullable hnull

include hnames hb hdata in
/-- Whatever work comes to within its levels is read again as it is. -/
theorem reproduces_eventual? (state : σ) : ∀ levels,
    scope.Reproduces operation (scope.eventual? state levels)
  | 0 => by
      refine ⟨fun _ => rfl, ?_, ?_⟩
      · intro group type path answer o j path' _ ho
        cases ho
      · intro t value path group definition o j entries path' _ _ _ ho
        cases ho
  | levels + 1 => by
      have ih := reproduces_eventual? state levels
      refine ⟨fun _ => rfl, ?_, ?_⟩
      · intro group type path answer o j path' hselects ho hj
        exact ih.completed hnames hb hdata path' hselects ho hj
      · intro t value path group definition o j entries path' hselects hresolver harguments ho hj hentry
        have opens : ∀ site : Site ω σ, scope.opened state (.unstarted (.field site group definition)) =
            scope.completeAnswer group definition.type (site.fieldPath group)
              (site.info group []).defaultAnswer := by
          intro site
          simp only [opened, harguments, coerceArguments, FieldDefinition.answerIn, hresolver]
        have hdefault : (Site.info ⟨t, .json entries, path'⟩ group []).defaultAnswer =
            .ok (.leaf j) := by
          simp [ResolveInfo.defaultAnswer, Site.info, ObjectValue.asJson?, hentry]
        rw [eventual?, opens] at ho ⊢
        rw [hdefault]
        exact ih.completed hnames hb hdata _ hselects ho hj

end Levels

end Scope

/-! ## Queries -/

namespace Schema

variable {schema : Schema ω σ} {request : Request ω} {operation : Operation} {root : ObjectType ω σ}
  {prepared : Prepared ω σ}

/-- The same request is prepared alike for another root value. -/
theorem Prepares.with_root (hp : schema.Prepares request operation root prepared)
    (value : ObjectValue ω) :
    schema.Prepares { request with root := value } operation root { prepared with
      start := prepared.scope.operationWork operation.kind ⟨root, value, []⟩ operation.selections } where
  selects := hp.selects
  executable := hp.executable
  root_eq := hp.root_eq
  binds := hp.binds
  scope_eq := hp.scope_eq
  start_eq := rfl
  levels_eq := hp.levels_eq

/-- What the work on a query comes to is what the query comes to on its own data. -/
theorem Prepares.finally?_again {draft : SchemaDraft ω σ} (hb : draft.build = .ok schema)
    (hdata : schema.ReadsData) (hp : schema.Prepares request operation root prepared)
    (hquery : operation.kind = .query)
    (hnames : schema.NamesTypes request.document.fragments operation) {state : σ} {o : Outcome}
    {data : JsonObject}
    (ho : prepared.scope.workEventual? state prepared.levels prepared.start = some o)
    (hvalue : o.value = some (.obj data)) :
    schema.finally? state { request with root := .json data } = some (.responded ⟨[], some data⟩) := by
  have hschema : prepared.scope.schema = schema := by rw [hp.scope_eq]
  have hfragments : prepared.scope.fragments = request.document.fragments := by rw [hp.scope_eq]
  have hroot : schema.root? .query = some root := hquery ▸ hp.root_eq
  rw [hp.start_eq_query hquery] at ho
  obtain ⟨os, hos, rfl⟩ := Option.map_eq_some_iff.mp ho
  obtain ⟨values, hvalues, hassemble⟩ := Option.map_eq_some_iff.mp hvalue
  cases hassemble
  rw [← hschema] at hb hdata
  rw [← hschema, ← hfragments] at hnames
  have hreproduces := Scope.reproduces_eventual? hnames hb hdata state prepared.levels
  have hmeets : ∀ s ∈ operation.selections,
      prepared.scope.schema.Meets prepared.scope.fragments operation root s := by
    intro s hs
    refine .operation ?_ hs
    rw [hschema, hp.root_eq]
  have hname : prepared.scope.schema.object? schema.queryType = some root := by
    rw [hschema]
    exact hroot
  obtain ⟨hagain, -⟩ := hreproduces.outcomesBy_objectTask hnames hdata hname hmeets [] hos hvalues rfl
  rw [finally?, (hp.with_root _).prepare_eq, hquery]
  show Option.map _ ((prepared.scope.objectTask _ operation.selections).outcomeBy _) = _
  rw [hagain]
  rfl

/-- A query that is executed on the data of its response gives these data again, in whatever state, and
without the errors that were found the first time. -/
theorem execute_projection {draft : SchemaDraft ω σ} (hb : draft.build = .ok schema)
    (hdata : schema.ReadsData)
    (hselects : request.document.selectOperation request.operationName = .ok operation)
    (hquery : operation.kind = .query)
    (hnames : schema.NamesTypes request.document.fragments operation) {state : σ} {response : Response}
    (h : (schema.execute request state).ending = .responded response) {data : JsonObject}
    (hresponse : response.data = some data) (state' : σ) :
    (schema.execute { request with root := .json data } state').ending = .responded ⟨[], some data⟩ := by
  have hends : schema.finally? state request = some (schema.execute request state).ending :=
    finally?_of_execute hdata.unresolved.pure state (by rw [h]; nofun)
  rw [h] at hends
  have hrounds : request.rounds ≠ 0 := by
    intro hzero
    rw [execute, hzero] at h
    cases h
  cases hprepare : schema.prepare request with
  | error reason =>
      rw [finally?, hprepare] at hends
      cases hends
  | ok prepared =>
      obtain ⟨operation', root, hp⟩ := schema.exists_of_prepare hprepare
      obtain rfl : operation' = operation := Except.ok.inj (hp.selects.symm.trans hselects)
      rw [finally?, hprepare] at hends
      obtain ⟨o, ho, heq⟩ := Option.map_eq_some_iff.mp hends
      cases heq
      obtain ⟨json, hvalue, hobject⟩ := Option.bind_eq_some_iff.mp hresponse
      cases json with
      | obj entries =>
          cases hobject
          exact execute_of_unresolved hdata.unresolved (hp.with_root _) hquery
            (hp.finally?_again hb hdata hquery hnames ho hvalue) hrounds state'
      | null | bool _ | int _ | float _ | str _ | arr _ => cases hobject

end Schema

/-! ## Crates -/

def crateQuery : ObjectType Unit Unit where
  name := "Query"
  fields := [("crates", { name := "crates", type := .list (.named "Crate") })]

def crateBox : ObjectType Unit Unit where
  name := "Box"
  interfaces := ["Crate"]
  fields := [
    ("label", { name := "label", type := .nonNullNamed "ID" }),
    ("weight", { name := "weight", type := .named "Float" })]

def crateBag : ObjectType Unit Unit where
  name := "Bag"
  interfaces := ["Crate"]
  fields := [("label", { name := "label", type := .nonNullNamed "ID" })]

/-- Crates are boxes and bags.  Each is labelled, and boxes have a weight. -/
def crateDraft : SchemaDraft Unit Unit where
  query := some "Query"
  types := [
    .object crateQuery,
    .interface { name := "Crate", fields := [("label", { name := "label", type := .nonNullNamed "ID" })] },
    .object crateBox, .object crateBag]

def crateSchema : Schema Unit Unit where
  queryType := "Query"
  mutationType := none
  types := crateDraft.registered
  possible := SchemaDraft.possibleIndex crateDraft.registered

/-- What is asked of each crate. -/
def crateSelections : List Selection :=
  [.plain "__typename" [], .plain "label" [],
    .inlineFragment ⟨some "Box", [], [.plain "weight" []], none⟩]

def crateOperation : Operation :=
  .plain .query [.plain "crates" crateSelections]

/-- Numbers stand for a label and a weight, and the label of a bag is missing. -/
def crateRequest : Request Unit where
  document := ⟨[crateOperation], []⟩
  root := .json [("crates", .arr [
    .obj [("__typename", .str "Box"), ("label", .int 7), ("weight", .int 3)],
    .obj [("__typename", .str "Bag")]])]
  depth := 2
  rounds := 1

theorem crateSchema_readsData : crateSchema.ReadsData := by
  have hb : crateDraft.build = .ok crateSchema := rfl
  refine SchemaDraft.readsData_of_build hb ?_
  simp only [crateDraft, List.forall_mem_cons, TypeDefinition.ReadsData, crateQuery, crateBox, crateBag]
  simp

/-- Only the crates are asked for on the root, and only what all crates are asked for on a crate. -/
theorem crateOperation_meets {t : ObjectType Unit Unit} {s : Selection}
    (h : crateSchema.Meets [] crateOperation t s) :
    (t = crateQuery ∧ s = .plain "crates" crateSelections) ∨
      (t = crateBox ∨ t = crateBag) ∧ (s ∈ crateSelections ∨ s = .plain "weight" []) := by
  induction h with
  | operation hroot hs =>
      cases hroot
      exact .inl ⟨rfl, List.mem_singleton.mp hs⟩
  | spread _ hget _ _ _ => cases hget
  | inline _ _ hs ih =>
      rcases ih with ⟨_, heq⟩ | ⟨ht, hmem | heq⟩
      · cases heq
      · simp only [crateSelections, Selection.plain, List.mem_cons, reduceCtorEq, false_or,
          List.not_mem_nil, or_false, Selection.inlineFragment.injEq] at hmem
        subst hmem
        exact .inr ⟨ht, .inr (List.mem_singleton.mp hs)⟩
      · cases heq
  | field _ hd hu hs ih =>
      rcases ih with ⟨rfl, heq⟩ | ⟨_, hmem | heq⟩
      · cases heq
        cases hd
        refine .inr ⟨?_, .inl hs⟩
        cases hu with
        | object htype => cases htype
        | union htype => cases htype
        | interface _ hlisted hself =>
            have hnames : crateSchema.possibleTypes "Crate" = ["Box", "Bag"] := rfl
            simp only [TypeRef.innerName, hnames, List.mem_cons, List.not_mem_nil, or_false] at hlisted
            rcases hlisted with hname | hname <;> rw [hname] at hself <;> cases hself
            · exact .inl rfl
            · exact .inr rfl
      · simp only [crateSelections, Selection.plain, List.mem_cons, reduceCtorEq,
          List.not_mem_nil, or_false, Selection.field.injEq] at hmem
        rcases hmem with rfl | rfl <;> cases hs
      · cases heq
        cases hs

theorem crateOperation_namesTypes : crateSchema.NamesTypes [] crateOperation where
  unaliased := by
    intro t f hmet
    rcases crateOperation_meets hmet with ⟨_, heq⟩ | ⟨_, hmem | heq⟩
    · cases heq
      rfl
    · simp only [crateSelections, Selection.plain, List.mem_cons, reduceCtorEq,
        List.not_mem_nil, or_false, Selection.field.injEq] at hmem
      rcases hmem with rfl | rfl <;> rfl
    · cases heq
      rfl
  typename := by
    intro t f definition resolveType? hmet hn hd habstract
    have leaf : ∀ name s, crateSchema.type? name = some (.scalar s) →
        ¬ crateSchema.Abstract name resolveType? := by
      rintro name s hs (ht | ht) <;> cases hs.symm.trans ht
    rcases crateOperation_meets hmet with ⟨rfl, heq⟩ | ⟨ht, hmem | heq⟩
    · cases heq
      exact ⟨_, List.mem_cons_self, rfl, rfl, rfl⟩
    · simp only [crateSelections, Selection.plain, List.mem_cons, reduceCtorEq,
        List.not_mem_nil, or_false, Selection.field.injEq] at hmem
      rcases hmem with rfl | rfl
      · exact absurd rfl hn
      · rcases ht with rfl | rfl <;> cases hd <;> exact absurd habstract (leaf _ _ rfl)
    · cases heq
      rcases ht with rfl | rfl <;> cases hd
      exact absurd habstract (leaf _ _ rfl)

/-- The label of the first crate has become text and its weight a fractional number, and the bag is
gone.  So it stays. -/
theorem crateRequest_projection :
    crateDraft.build = .ok crateSchema ∧ crateSchema.ReadsData ∧
      crateSchema.NamesTypes [] crateOperation ∧
      ∃ error data, (crateSchema.execute crateRequest ()).ending = .responded ⟨[error], some data⟩ ∧
        data = [("crates", .arr [.obj [("__typename", .str "Box"), ("label", .str "7"),
          ("weight", .float (Double.ofInt 3))], .null])] ∧
        (crateSchema.execute { crateRequest with root := .json data } ()).ending =
          .responded ⟨[], some data⟩ := by
  have hb : crateDraft.build = .ok crateSchema := rfl
  have run : (crateSchema.execute crateRequest ()).ending = .responded
      ⟨[⟨"non-null type ID! resolved to null", [], [.key "crates", .index 1, .key "label"], []⟩],
        some [("crates", .arr [.obj [("__typename", .str "Box"), ("label", .str "7"),
          ("weight", .float (Double.ofInt 3))], .null])]⟩ := by decide +kernel
  have hselects : crateRequest.document.selectOperation none = .ok crateOperation := rfl
  exact ⟨hb, crateSchema_readsData, crateOperation_namesTypes, _, _, run, rfl,
    Schema.execute_projection hb crateSchema_readsData hselects rfl crateOperation_namesTypes run rfl ()⟩

end GraphQLEngine
