/-
Type conditions of fragments.

Three tests decide whether an object type belongs to a type: that of fragments, that of
`isSubtype`, which every type passes for itself, and that of the values of abstract types.
In a built schema the first comes to being listed among the possible types
(`fragmentApplies_iff`), whatever the condition names.  What is found for a value is a
possible type of the declared one, so a fragment on the declared type of a field is
never dropped there (`Schema.agreesOnConditions`).

Fragments on other types than the declared one may be dropped; which are is said by
`fragmentApplies_iff` alone.
-/
import GraphQLEngine.Proofs.AbstractTypes

namespace GraphQLEngine

variable {ω σ : Type}

/-! ## Fragments that apply -/

namespace Scope

/-- Fragments with a type condition take part in selection sets on objects of a type: what a named one
stands for are its selections, and one in place can be replaced by them. -/
structure Admits (scope : Scope ω σ) (objectType condition : Name) : Prop where
  named : ∀ name fragment, scope.fragments.get? name = some fragment →
    fragment.typeCondition = condition → scope.expansion? objectType name = some fragment.selections
  inline : ∀ (i : InlineFragment Selection) (before after : List Selection),
    i.typeCondition = some condition →
    (Selection.inlineFragment i).isIncluded scope.bindings = true →
    scope.collect objectType (before ++ .inlineFragment i :: after) =
      scope.collect objectType (before ++ (i.selections ++ after))

variable {scope : Scope ω σ} {objectType condition : Name} {expand : Fragment → Collected → Collected}

theorem collectEach_append (ss ts : List Selection) (acc : Collected) :
    scope.collectEach objectType expand (ss ++ ts) acc =
      scope.collectEach objectType expand ts (scope.collectEach objectType expand ss acc) := by
  induction ss generalizing acc with
  | nil => rw [List.nil_append, collectEach]
  | cons s rest ih => rw [List.cons_append, collectEach, collectEach, ih]

/-- A fragment in place that applies adds what its selections would add in its stead. -/
theorem collectEach_inline {i : InlineFragment Selection}
    (hincluded : (Selection.inlineFragment i).isIncluded scope.bindings = true)
    (happlies : scope.applies objectType i.typeCondition = true) (before after : List Selection)
    (acc : Collected) :
    scope.collectEach objectType expand (before ++ .inlineFragment i :: after) acc =
      scope.collectEach objectType expand (before ++ (i.selections ++ after)) acc := by
  have hone : ∀ acc, scope.collectOne objectType expand (.inlineFragment i) acc =
      scope.collectEach objectType expand i.selections acc := by
    intro acc
    rw [collectOne, hincluded, happlies]
    rfl
  rw [collectEach_append, collectEach_append, collectEach_append, collectEach, hone]

theorem admits_of_applies (h : scope.applies objectType (some condition) = true) :
    scope.Admits objectType condition where
  named := by
    rintro name fragment hget rfl
    simp only [expansion?, hget, h, if_true]
  inline := by
    intro i before after hcondition hincluded
    have happlies : scope.applies objectType i.typeCondition = true := hcondition ▸ h
    rw [collect, collect]
    cases scope.fragments.length with
    | zero => rw [collectWithin, collectWithin, collectEach_inline hincluded happlies]
    | succ _ => rw [collectWithin, collectWithin, collectEach_inline hincluded happlies]

end Scope

/-! ## Conditions and possible types -/

namespace Schema

variable {draft : SchemaDraft ω σ} {schema : Schema ω σ} {objectType : Name} {t : ObjectType ω σ}

/-- A condition lets an object type pass exactly if that is one of its possible types. -/
theorem fragmentApplies_iff (hb : draft.build = .ok schema) (ht : schema.object? objectType = some t)
    (condition : Name) :
    schema.fragmentApplies objectType condition = true ↔
      objectType ∈ schema.possibleTypes condition := by
  -- An abstract type is no object type, so it is not the one that is asked about.
  have abstract : schema.object? condition = none →
      (schema.isSubtype condition objectType = true ↔ objectType ∈ schema.possibleTypes condition) := by
    intro hnone
    rw [isSubtype_iff]
    refine or_iff_right fun heq => ?_
    rw [heq, ht] at hnone
    cases hnone
  have leaf : (∀ d, schema.type? condition = some d → d.isInput = true) →
      (false = true ↔ objectType ∈ schema.possibleTypes condition) := by
    intro hleaf
    rw [possibleTypes_of_leaf hb hleaf]
    exact iff_of_false Bool.false_ne_true List.not_mem_nil
  rw [fragmentApplies]
  match hcondition : schema.type? condition with
  | some (.object u) =>
      have hobject : schema.object? condition = some u := by rw [object?, hcondition]
      rw [possibleTypes_of_object hb hobject, List.mem_singleton, beq_iff_eq, eq_comm]
  | some (.interface _) => exact abstract (by rw [object?, hcondition])
  | some (.union _) => exact abstract (by rw [object?, hcondition])
  | some (.scalar _) => exact leaf fun d hd => by cases hcondition.symm.trans hd; rfl
  | some (.enum _) => exact leaf fun d hd => by cases hcondition.symm.trans hd; rfl
  | none => exact leaf fun d hd => by cases hcondition.symm.trans hd

/-- The object types that an object can have where a type is declared are possible types of it. -/
theorem Concrete.listed (hb : draft.build = .ok schema) {name : Name} (h : schema.Concrete name t) :
    t.name ∈ schema.possibleTypes name ∧ schema.object? t.name = some t := by
  cases h with
  | interface _ hlisted hself => exact ⟨hlisted, hself⟩
  | union _ hlisted hself => exact ⟨hlisted, hself⟩
  | object htype =>
      have hobject : schema.object? name = some t := by rw [object?, htype]
      obtain ⟨rfl, hself⟩ := object?_name (SchemaDraft.named_of_build hb) hobject
      rw [possibleTypes_of_object hb hself]
      exact ⟨List.mem_singleton_self _, hself⟩

/-- A condition on the declared type lets every object pass that is found to be of it. -/
theorem fragmentApplies_of_objectTypeOf (hb : draft.build = .ok schema) {name : Name}
    {value : ObjectValue ω} (h : schema.objectTypeOf name value = .ok t) :
    schema.fragmentApplies t.name name = true := by
  obtain ⟨hlisted, hself⟩ :=
    (objectTypeOf_concrete (SchemaDraft.named_of_build hb) h).listed hb
  exact (fragmentApplies_iff hb hself name).mpr hlisted

/-- How type conditions go with the types of a schema: they let the possible types pass that they name,
and on the declared type of a place they let every object pass that completion, or a run, has there. -/
structure AgreesOnConditions (schema : Schema ω σ) : Prop where
  possible : ∀ objectType t, schema.object? objectType = some t → ∀ condition,
    schema.fragmentApplies objectType condition = true ↔ objectType ∈ schema.possibleTypes condition
  completed : ∀ scope : Scope ω σ, scope.schema = schema → ∀ group type path answer site turns children,
    scope.completeAnswer group type path answer = .branch (.object site) turns children →
      scope.Admits site.objectType.name type.innerName
  executed : ∀ (request : Request ω) (state : σ) (prepared : Prepared ω σ) (work : Work ω σ),
    schema.prepare request = .ok prepared → (schema.execute request state).work = some work →
    ∀ type site, work.HasObject type site →
      prepared.scope.Admits site.objectType.name type.innerName

/-- In a built schema, the tests of fragments and of values agree. -/
theorem agreesOnConditions (hb : draft.build = .ok schema) : schema.AgreesOnConditions where
  possible objectType t ht condition := fragmentApplies_iff hb ht condition
  completed := by
    rintro scope rfl group type path answer site turns children hcompleted
    have hcompletes := scope.completes_completeAnswer group type path answer
    rw [hcompleted] at hcompletes
    cases hcompletes with
    | object _ _ hfound => exact Scope.admits_of_applies (fragmentApplies_of_objectTypeOf hb hfound)
  executed := by
    intro request state prepared work hprepare hwork type site hobject
    obtain ⟨operation, root, hp⟩ := schema.exists_of_prepare hprepare
    have hfound := hobject.objectTypeOf (schema.execute_typed request state hwork)
    refine Scope.admits_of_applies ?_
    rw [Scope.applies, hp.scope_eq]
    exact fragmentApplies_of_objectTypeOf hb hfound

end Schema

/-- A dog passes as a pet and not as a cat, by its type and where it is met. -/
theorem petSchema_agreesOnConditions :
    petDraft.build = .ok petSchema ∧ petSchema.fragmentApplies "Dog" "Pet" = true ∧
      petSchema.fragmentApplies "Dog" "Cat" = false ∧ petSchema.fragmentApplies "Dog" "String" = false ∧
      petSchema.fragmentApplies "Dog" "Unicorn" = false ∧
      ∃ prepared work site, petSchema.prepare petRequest = .ok prepared ∧
        (petSchema.execute petRequest ()).work = some work ∧ work.HasObject (.named "Pet") site ∧
        site.objectType = dogType ∧ prepared.scope.Admits "Dog" "Pet" := by
  have hb : petDraft.build = .ok petSchema := rfl
  have hagrees : petSchema.AgreesOnConditions := Schema.agreesOnConditions hb
  have hdog : ∀ condition, petSchema.fragmentApplies "Dog" condition = true ↔
      "Dog" ∈ petSchema.possibleTypes condition := hagrees.possible "Dog" dogType rfl
  have hprepare : petSchema.prepare petRequest = .ok _ := rfl
  have hwork : (petSchema.execute petRequest ()).work = some (.query (.branch
      (.object ⟨_, petRequest.root, []⟩) .together [.mk ⟨.key "pet", .named "Pet"⟩ (.branch
        (.object ⟨dogType, .json [("__typename", .str "Dog"), ("name", .str "Rex")], [.key "pet"]⟩)
        .together [.mk ⟨.key "name", .named "String"⟩ (.value (.str "Rex"))])])) := rfl
  have hadmits := hagrees.executed _ _ _ _ hprepare hwork (.named "Pet") _
    (.query List.mem_cons_self .here)
  refine ⟨hb, (hdog _).mpr (by decide), ?_, ?_, ?_, _, _, _, hprepare, hwork,
    .query List.mem_cons_self .here, rfl, hadmits⟩
  · rw [Bool.eq_false_iff, ne_eq, hdog]
    decide
  · rw [Bool.eq_false_iff, ne_eq, hdog]
    decide
  · rw [Bool.eq_false_iff, ne_eq, hdog]
    decide

end GraphQLEngine
