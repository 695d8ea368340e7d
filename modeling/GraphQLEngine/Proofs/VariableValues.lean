/-
What variables are bound to, and what becomes of it in list literals.

The value of a variable is the result of coercion to its declared type.  That it has no
null where its type has none, and that a list literal which refers to it holds it as it
is, both depend on the scalars of the schema.  Null is refused before a scalar parses a
value, and not afterwards, so the first holds just for scalars that parse nothing as
null (`Schema.bindsNonNull_iff`).  A literal is coerced with the values of its variables
put in, which have been coerced before, so the second holds just for scalars whose
results are parsed as themselves (`Schema.coercesOnce_iff`); what is held otherwise is
the value coerced again (`Scope.Nests.coerced_again`).  The built-in scalars and those
that pass values through are of both kinds.
-/
import GraphQLEngine.Proofs.Conformance
import GraphQLEngine.Proofs.InputPositions

namespace GraphQLEngine

variable {ω σ : Type}

/-! ## Scalars -/

/-- No value is parsed as null. -/
def ScalarType.ParsesNonNull (t : ScalarType) : Prop :=
  ∀ j, j ≠ .null → t.parse j ≠ .ok .null

/-- What a value is parsed as is not null, and is parsed as itself. -/
def ScalarType.ParsesOnce (t : ScalarType) : Prop :=
  ∀ j k, j ≠ .null → t.parse j = .ok k → k ≠ .null ∧ t.parse k = .ok k

theorem ScalarType.ParsesOnce.parsesNonNull {t : ScalarType} (h : t.ParsesOnce) : t.ParsesNonNull :=
  fun j hj hparse => (h j .null hj hparse).1 rfl

theorem ScalarType.passThrough_parsesOnce (name : Name) : ({ name } : ScalarType).ParsesOnce := by
  intro j k hj hparse
  cases hparse
  exact ⟨hj, rfl⟩

namespace BuiltIn

theorem eq_of_coerceInt {j k : Json} (h : coerceInt j = .ok k) : k = j := by
  rw [coerceInt] at h
  split at h
  · split at h
    · cases h
      rfl
    · cases h
  · cases h

/-- The built-in scalars parse what they have parsed as itself. -/
theorem parsesOnce : ∀ t ∈ scalars, t.ParsesOnce := by
  have coerced : ∀ name description coerce,
      (∀ j k, coerce j = .ok k → k ≠ .null ∧ coerce k = .ok k) →
      (scalar name description coerce).ParsesOnce := fun _ _ _ h j k _ hparse => h j k hparse
  simp only [scalars, List.forall_mem_cons]
  refine ⟨coerced _ _ _ ?_, coerced _ _ _ ?_, coerced _ _ _ ?_, coerced _ _ _ ?_, coerced _ _ _ ?_,
    fun _ h => absurd h List.not_mem_nil⟩
  · intro j k h
    obtain ⟨n, rfl, -⟩ := eq_int_of_coerceInt h
    obtain rfl := eq_of_coerceInt h
    exact ⟨by rintro ⟨⟩, h⟩
  · intro j k h
    obtain ⟨d, rfl⟩ := eq_float_of_coerceFloat h
    exact ⟨by rintro ⟨⟩, rfl⟩
  · intro j k h
    obtain ⟨s, rfl⟩ := eq_str_of_coerceString h
    exact ⟨by rintro ⟨⟩, rfl⟩
  · intro j k h
    obtain ⟨b, rfl⟩ := eq_bool_of_coerceBoolean h
    exact ⟨by rintro ⟨⟩, rfl⟩
  · intro j k h
    obtain ⟨s, rfl⟩ := eq_str_of_coerceIdentifier h
    exact ⟨by rintro ⟨⟩, rfl⟩

end BuiltIn

/-! ## Bound values -/

/-- An operation declares a variable, and with one type only. -/
structure Operation.DeclaresVariable (operation : Operation) (name : Name) (type : TypeRef) : Prop where
  declared : ∃ d ∈ operation.variableDefinitions, d.name = name
  only : ∀ d ∈ operation.variableDefinitions, d.name = name → d.type = type

namespace Schema

variable {schema : Schema ω σ} {provided bindings : JsonObject} {name : Name} {value : Json}

/-- What a variable is bound to is the result of coercion to its type. -/
theorem exists_of_coerceVariables {operation : Operation} {type : TypeRef}
    (h : schema.coerceVariables operation provided = .ok bindings)
    (hdeclares : operation.DeclaresVariable name type)
    (hvalue : OrderedMap.get? bindings name = some value) :
    ∃ input, schema.coerceInput type input = .ok value := by
  rcases exists_of_bindVariables h hvalue with hnone | ⟨d, hmem, hname, hinput⟩
  · cases hnone
  · rwa [hdeclares.only d hmem hname] at hinput

end Schema

/-- An operation with one variable, which selects nothing. -/
def Operation.declaring (name : Name) (type : TypeRef) : Operation where
  kind := .query
  name? := none
  variableDefinitions := [⟨name, type, none, none⟩]
  directives := []
  selections := []
  location := none

theorem Operation.declaring_declaresVariable (name : Name) (type : TypeRef) :
    (Operation.declaring name type).DeclaresVariable name type where
  declared := ⟨_, List.mem_singleton_self _, rfl⟩
  only := by
    intro d hmem _
    rw [List.mem_singleton.mp hmem]

theorem Schema.coerceVariables_declaring {schema : Schema ω σ} {type : TypeRef} {input value : Json}
    (name : Name) (h : schema.coerceInput type input = .ok value) :
    schema.coerceVariables (.declaring name type) [(name, input)] = .ok [(name, value)] := by
  simp [coerceVariables, Operation.declaring, bindVariables, variableInput?, OrderedMap.get?, h,
    OrderedMap.insert]

/-! ## Nulls in bound values -/

/-- No value that a variable is bound to has a null where the type of the variable has none. -/
def Schema.BindsNonNull (schema : Schema ω σ) : Prop :=
  ∀ (operation : Operation) (provided bindings : JsonObject) (name : Name) (type : TypeRef) (value : Json),
    schema.coerceVariables operation provided = .ok bindings →
    operation.DeclaresVariable name type → OrderedMap.get? bindings name = some value →
    ∀ path item, type.itemAt? path = some item → value.itemAt? path = some .null →
      item.isNonNull = false

namespace Schema

variable {schema : Schema ω σ} {type : TypeRef} {name : Name} {value result : Json}

/-- Coercion gives null only to types that have it, unless a scalar parses something as null. -/
theorem isNonNull_eq_false_of_coerceInput
    (hscalars : ∀ name t, schema.type? name = some (.scalar t) → t.ParsesNonNull)
    (h : schema.coerceInput type value = .ok .null) : type.isNonNull = false := by
  by_cases hvalue : value = .null
  · exact (eq_null_of_coerceInput_null (hvalue ▸ h)).2
  · cases hitem : type.item? with
    | some item =>
        obtain ⟨results, hresult, -⟩ := exists_of_coerceInput_list hvalue hitem h
        cases hresult
    | none =>
        rw [coerceInput_leaf hvalue hitem] at h
        rcases coerceNamedInput_cases h with ⟨t, htype, hparse⟩ | ⟨t, -, -, hresult⟩
        · exact absurd hparse (hscalars _ t htype value hvalue)
        · exact absurd hresult.symm hvalue

/-- Variables respect the types that have no null just if no scalar parses a value as null. -/
theorem bindsNonNull_iff (schema : Schema ω σ) :
    schema.BindsNonNull ↔ ∀ name t, schema.type? name = some (.scalar t) → t.ParsesNonNull := by
  constructor
  · intro h name t htype j hj hparse
    have hcoerce : schema.coerceInput (.nonNullNamed name) j = .ok .null := by
      rw [coerceInput_leaf hj rfl]
      exact coerceNamedInput_scalar htype hparse
    have hnull := h _ _ _ "value" _ .null (coerceVariables_declaring "value" hcoerce)
      (Operation.declaring_declaresVariable _ _) rfl [] _ rfl rfl
    cases hnull
  · intro hscalars operation provided bindings name type value hbind hdeclares hvalue path item htype hnull
    obtain ⟨input, hinput⟩ := exists_of_coerceVariables hbind hdeclares hvalue
    obtain ⟨j, hj⟩ := exists_of_coerceInput_itemAt? htype hnull hinput
    exact isNonNull_eq_false_of_coerceInput hscalars hj

end Schema

/-- A query for one field with one argument, which refers to one variable. -/
def variableRequest (field argument : Name) (given : Literal) (type : TypeRef) (value : Json) :
    Request Unit where
  document := {
    operations := [{
      Operation.declaring "value" type with
      selections := [.field ⟨none, field, [⟨argument, given⟩], [], [], none⟩] }]
    fragments := [] }
  variableValues := [("value", value)]
  root := .json []

/-- A field that shows what its argument holds. -/
def showingField (name argument : Name) (type : TypeRef) : FieldDefinition Unit Unit where
  name := name
  arguments := [(argument, { type })]
  type := type.nullable
  resolver? := some ⟨none, fun info state =>
    (.ok (.leaf ((OrderedMap.get? info.arguments argument).getD .null)), state)⟩

/-- A scalar that parses whatever it is given as null. -/
def sieveDraft : SchemaDraft Unit Unit where
  query := some "Query"
  types := [
    .scalar { name := "Sieve", parse := fun _ => .ok .null },
    .object (ObjectType.addField { name := "Query" }
      (showingField "rest" "grains" (.list (.named "Sieve"))))]

def sieveSchema : Schema Unit Unit where
  queryType := "Query"
  mutationType := none
  types := sieveDraft.registered
  possible := SchemaDraft.possibleIndex sieveDraft.registered

/-- A variable for a list without nulls is bound to one with a null, and the request is answered. -/
theorem sieveDraft_binds_null :
    sieveDraft.build = .ok sieveSchema ∧ ¬ sieveSchema.BindsNonNull ∧
      (sieveSchema.execute (variableRequest "rest" "grains" (.variableRef "value")
        (.nonNullList (.nonNullNamed "Sieve")) (.arr [.int 1])) ()).ending =
          .responded ⟨[], some [("rest", .arr [.null])]⟩ := by
  refine ⟨rfl, ?_, by decide +kernel⟩
  intro h
  have hbound : sieveSchema.coerceVariables
      (.declaring "value" (.nonNullList (.nonNullNamed "Sieve"))) [("value", .arr [.int 1])] =
        .ok [("value", .arr [.null])] := rfl
  have hnull := h _ _ _ "value" _ _ hbound (Operation.declaring_declaresVariable _ _) rfl [0] _ rfl rfl
  cases hnull

/-- A field with one argument. -/
def FieldSelection.giving (argument : Name) (literal : Literal) : Field where
  alias? := none
  name := "field"
  arguments := [⟨argument, literal⟩]
  directives := []
  selections := []
  location := none

/-! ## Variables in list literals -/

/-- A list literal is given for an argument, and refers to a variable where the type of the variable is
expected.  The value is the one that the variable is bound to. -/
structure Scope.Nests (scope : Scope ω σ) (operation : Operation) (provided : JsonObject) (field : Field)
    (definitions : OrderedMap ArgumentDefinition) (argument : Name) (definition : ArgumentDefinition)
    (items : List Literal) (path : List Nat) (type : TypeRef) (value : Json) : Prop where
  bound : scope.schema.coerceVariables operation provided = .ok scope.bindings
  distinct : definitions.keys.Nodup
  declared : (argument, definition) ∈ definitions
  given : argument? field.arguments argument = some (.list items)
  expected : definition.type.itemAt? path = some type
  refers : ∃ name, (Literal.list items).itemAt? path = some (.variableRef name) ∧
    operation.DeclaresVariable name type ∧ OrderedMap.get? scope.bindings name = some value

/-- An argument holds a value at a path, and if it is refused, then for something beside. -/
structure Scope.Keeps (scope : Scope ω σ) (field : Field) (definitions : OrderedMap ArgumentDefinition)
    (argument : Name) (definition : ArgumentDefinition) (items : List Literal) (path : List Nat)
    (value : Json) : Prop where
  holds : ∀ arguments, scope.coerceArguments field definitions = .ok arguments →
    ∃ j, OrderedMap.get? arguments argument = some j ∧ j.itemAt? path = some value
  blameless : ∀ reason,
    scope.coerceArguments field definitions = .error (.invalidArgument argument reason) →
    scope.schema.MisfitBeside definition.type ((Literal.list items).toJson scope.bindings) path reason

/-- Variables in list literals are coerced when they are bound, and not again. -/
def Schema.CoercesOnce (schema : Schema ω σ) : Prop :=
  ∀ (scope : Scope ω σ) (operation : Operation) (provided : JsonObject) (field : Field)
    (definitions : OrderedMap ArgumentDefinition) (argument : Name) (definition : ArgumentDefinition)
    (items : List Literal) (path : List Nat) (type : TypeRef) (value : Json), scope.schema = schema →
    scope.Nests operation provided field definitions argument definition items path type value →
    scope.Keeps field definitions argument definition items path value

namespace Scope.Nests

variable {scope : Scope ω σ} {operation : Operation} {provided : JsonObject} {field : Field}
  {definitions : OrderedMap ArgumentDefinition} {argument : Name} {definition : ArgumentDefinition}
  {items : List Literal} {path : List Nat} {type : TypeRef} {value : Json}

/-- The value stands at its path before the literal is coerced. -/
theorem itemAt?_toJson
    (h : scope.Nests operation provided field definitions argument definition items path type value) :
    ((Literal.list items).toJson scope.bindings).itemAt? path = some value := by
  obtain ⟨name, hrefers, -, hvalue⟩ := h.refers
  rw [Literal.itemAt?_toJson scope.bindings hrefers, Literal.toJson, hvalue]
  rfl

/-- The argument is made of a list type. -/
theorem exists_item
    (h : scope.Nests operation provided field definitions argument definition items path type value) :
    ∃ item, definition.type.item? = some item := by
  obtain ⟨name, hrefers, -⟩ := h.refers
  cases path with
  | nil => cases hrefers
  | cons i path =>
      obtain ⟨item, hitem, -⟩ := TypeRef.itemAt?_cons_eq_some h.expected
      exact ⟨item, hitem⟩

/-- The argument holds what its variable is bound to, coerced again. -/
theorem coerced_again
    (h : scope.Nests operation provided field definitions argument definition items path type value)
    {arguments : JsonObject} (hok : scope.coerceArguments field definitions = .ok arguments) :
    ∃ j k, OrderedMap.get? arguments argument = some j ∧ j.itemAt? path = some k ∧
      scope.schema.coerceInput type value = .ok k := by
  obtain ⟨item, hitem⟩ := h.exists_item
  have hvalue := argumentValue_of_coerceArguments h.distinct h.declared hok
  rw [h.given, argumentValue_list hitem] at hvalue
  split at hvalue
  · cases hvalue
  · next j hcoerce =>
      obtain ⟨k, hk, hat⟩ := Schema.coerceInput_itemAt? h.expected h.itemAt?_toJson hcoerce
      exact ⟨j, k, (Except.ok.inj hvalue).symm, hat, hk⟩

/-- An argument is refused if what its variable is bound to cannot be coerced again, and otherwise only
for something beside. -/
theorem refused_beside
    (h : scope.Nests operation provided field definitions argument definition items path type value)
    {reason : InputError}
    (herror : scope.coerceArguments field definitions = .error (.invalidArgument argument reason)) :
    scope.schema.coerceInput type value = .error reason ∨
      scope.schema.MisfitBeside definition.type ((Literal.list items).toJson scope.bindings) path reason := by
  obtain ⟨item, hitem⟩ := h.exists_item
  obtain ⟨name, other, hmem, hvalue⟩ := exists_of_coerceArguments_error herror
  obtain rfl := eq_of_argumentValue_error hvalue
  have hsame : other = definition :=
    (List.inj_on_of_nodup_map h.distinct hmem h.declared rfl |> Prod.mk.inj).2
  subst hsame
  rw [h.given, argumentValue_list hitem] at hvalue
  split at hvalue
  · next reason' hcoerce =>
      cases hvalue
      exact Schema.coerceInput_error_beside h.expected h.itemAt?_toJson hcoerce
  · cases hvalue

end Scope.Nests

namespace Schema

variable {schema : Schema ω σ}

/-- Coercion changes nothing about its own results if no scalar parses its results as anything else. -/
theorem coerceInput_again
    (hscalars : ∀ name t, schema.type? name = some (.scalar t) → t.ParsesOnce) :
    ∀ (type : TypeRef) {value result : Json}, schema.coerceInput type value = .ok result →
      schema.coerceInput type result = .ok result := by
  intro type
  induction type using TypeRef.inductOnItem with
  | leaf type htype =>
      intro value result h
      by_cases hvalue : value = .null
      · subst hvalue
        obtain ⟨rfl, -⟩ := eq_null_of_coerceInput_null h
        exact h
      · have hnamed := h
        rw [coerceInput_leaf hvalue htype] at hnamed
        rcases coerceNamedInput_cases hnamed with ⟨t, hscalar, hparse⟩ | ⟨t, -, -, rfl⟩
        · obtain ⟨hresult, hagain⟩ := hscalars _ t hscalar value result hvalue hparse
          rw [coerceInput_leaf hresult htype]
          exact coerceNamedInput_scalar hscalar hagain
        · exact h
  | list type item htype ih =>
      intro value result h
      by_cases hvalue : value = .null
      · subst hvalue
        obtain ⟨rfl, -⟩ := eq_null_of_coerceInput_null h
        exact h
      · obtain ⟨results, rfl, hall⟩ := exists_of_coerceInput_list hvalue htype h
        have hagain : ∀ k ∈ results, schema.coerceInput item k = .ok k := by
          intro k hk
          obtain ⟨i, hi⟩ := List.mem_iff_getElem?.mp hk
          obtain ⟨j, -, hj⟩ := exists_getElem?_of_forall₂ hall.flip hi
          exact ih hj
        rw [coerceInput_list (by rintro ⟨⟩) htype, itemsOf,
          coerceItems_eq_ok_iff.mpr (List.forall₂_same.mpr hagain)]
        rfl

/-- In a list literal of one variable, nothing stands beside the variable. -/
theorem not_misfitBeside_singleton {type : TypeRef} {value : Json} {reason : InputError} :
    ¬ schema.MisfitBeside type (.arr [value]) [0] reason := by
  rintro ⟨other, inner, j, hother, hbeside, -, hj, -⟩
  cases other with
  | nil => exact hother List.nil_prefix
  | cons i other =>
      cases i with
      | zero => exact hbeside (List.cons_prefix_cons.mpr ⟨rfl, List.nil_prefix⟩)
      | succ i => cases hj

/-- A variable in a list literal is held as it is bound, if no scalar parses its results as anything
else. -/
theorem coercesOnce_of_parsesOnce
    (hscalars : ∀ name t, schema.type? name = some (.scalar t) → t.ParsesOnce) : schema.CoercesOnce := by
  rintro scope operation provided field definitions argument definition items path type value rfl hnests
  obtain ⟨name, -, hdeclares, hvalue⟩ := hnests.refers
  obtain ⟨input, hinput⟩ := exists_of_coerceVariables hnests.bound hdeclares hvalue
  have hagain := coerceInput_again hscalars type hinput
  constructor
  · intro arguments hok
    obtain ⟨j, k, hj, hk, hcoerce⟩ := hnests.coerced_again hok
    rw [hagain, Except.ok.injEq] at hcoerce
    exact ⟨j, hj, hcoerce ▸ hk⟩
  · intro reason herror
    refine (hnests.refused_beside herror).resolve_left fun hrefused => ?_
    rw [hagain] at hrefused
    cases hrefused

/-- The plainest case: a list literal of one variable. -/
theorem nests_singleton {type : TypeRef} {input value : Json}
    (h : schema.coerceInput type input = .ok value) :
    Scope.Nests ⟨schema, [], [("value", value)], none⟩ (.declaring "value" type) [("value", input)]
      (.giving "values" (.list [.variableRef "value"])) [("values", { type := .list type })]
      "values" { type := .list type } [.variableRef "value"] [0] type value where
  bound := coerceVariables_declaring "value" h
  distinct := List.nodup_singleton _
  declared := List.mem_singleton_self _
  given := rfl
  expected := rfl
  refers := ⟨"value", rfl, Operation.declaring_declaresVariable _ _, rfl⟩

/-- There the value of the variable is coerced once more. -/
theorem coerceArguments_singleton (schema : Schema ω σ) (type : TypeRef) (value : Json) :
    Scope.coerceArguments ⟨schema, [], [("value", value)], none⟩
        (.giving "values" (.list [.variableRef "value"])) [("values", { type := .list type })] =
      match schema.coerceInput type value with
      | .error reason => .error (.invalidArgument "values" reason)
      | .ok again => .ok [("values", .arr [again])] := by
  have hgiven : argument? (FieldSelection.giving "values" (.list [.variableRef "value"])).arguments
      "values" = some (.list [.variableRef "value"]) := rfl
  have hliteral : (Literal.list [.variableRef "value"]).toJson [("value", value)] = .arr [value] := rfl
  rw [Scope.coerceArguments, hgiven, Scope.argumentValue_list rfl, hliteral,
    coerceInput_list (by rintro ⟨⟩) rfl, itemsOf, coerceItems]
  cases schema.coerceInput type value with
  | error reason => rfl
  | ok again => rfl

/-- What a scalar parses can be told from a list literal of one variable. -/
theorem parsesOnce_of_coercesOnce (h : schema.CoercesOnce) {name : Name} {t : ScalarType}
    (htype : schema.type? name = some (.scalar t)) : t.ParsesOnce := by
  intro j k hj hparse
  have hcoerce : schema.coerceInput (.nonNullNamed name) j = .ok k := by
    rw [coerceInput_leaf hj rfl]
    exact coerceNamedInput_scalar htype hparse
  have hkeeps := h _ _ _ _ _ _ _ _ _ _ _ rfl (nests_singleton hcoerce)
  have hagain : schema.coerceInput (.nonNullNamed name) k = .ok k := by
    have hargs := schema.coerceArguments_singleton (.nonNullNamed name) k
    cases hcases : schema.coerceInput (.nonNullNamed name) k with
    | error reason =>
        rw [hcases] at hargs
        exact absurd (hkeeps.blameless reason hargs) not_misfitBeside_singleton
    | ok again =>
        rw [hcases] at hargs
        obtain ⟨held, hheld, hk⟩ := hkeeps.holds _ hargs
        cases hheld
        cases hk
        rfl
  have hnull : k ≠ .null := by
    rintro rfl
    cases (eq_null_of_coerceInput_null hagain).2
  rw [coerceInput_leaf hnull rfl] at hagain
  refine ⟨hnull, ?_⟩
  rcases coerceNamedInput_cases hagain with ⟨t', htype', hparse'⟩ | ⟨t', htype', -, -⟩
  · cases htype.symm.trans htype'
    exact hparse'
  · cases htype.symm.trans htype'

/-- Variables in list literals are coerced once just if each scalar parses its results as themselves, and
nothing as null. -/
theorem coercesOnce_iff (schema : Schema ω σ) :
    schema.CoercesOnce ↔ ∀ name t, schema.type? name = some (.scalar t) → t.ParsesOnce :=
  ⟨fun h _ _ htype => parsesOnce_of_coercesOnce h htype, coercesOnce_of_parsesOnce⟩

end Schema

/-- A scalar that puts whatever it is given in a box. -/
def boxDraft : SchemaDraft Unit Unit where
  query := some "Query"
  types := [
    .scalar { name := "Box", parse := fun value => .ok (.arr [value]) },
    .object (ObjectType.addField { name := "Query" }
      (showingField "stack" "boxes" (.list (.named "Box"))))]

def boxSchema : Schema Unit Unit where
  queryType := "Query"
  mutationType := none
  types := boxDraft.registered
  possible := SchemaDraft.possibleIndex boxDraft.registered

/-- In a list literal the value of a variable is boxed twice.  A variable for the whole list has it boxed
once. -/
theorem boxDraft_coerces_twice :
    boxDraft.build = .ok boxSchema ∧ ¬ boxSchema.CoercesOnce ∧
      (boxSchema.execute (variableRequest "stack" "boxes" (.list [.variableRef "value"])
        (.named "Box") (.int 1)) ()).ending =
          .responded ⟨[], some [("stack", .arr [.arr [.arr [.int 1]]])]⟩ ∧
      (boxSchema.execute (variableRequest "stack" "boxes" (.variableRef "value")
        (.list (.named "Box")) (.arr [.int 1])) ()).ending =
          .responded ⟨[], some [("stack", .arr [.arr [.int 1]])]⟩ := by
  refine ⟨rfl, ?_, by decide +kernel, by decide +kernel⟩
  intro h
  have hboxed : boxSchema.coerceInput (.named "Box") (.int 1) = .ok (.arr [.int 1]) := rfl
  have held : Scope.coerceArguments ⟨boxSchema, [], [("value", .arr [.int 1])], none⟩
      (.giving "values" (.list [.variableRef "value"])) [("values", { type := .list (.named "Box") })] =
        .ok [("values", .arr [.arr [.arr [.int 1]]])] := rfl
  obtain ⟨j, hj, hvalue⟩ := (h _ _ _ _ _ _ _ _ _ _ _ rfl (Schema.nests_singleton hboxed)).holds _ held
  cases hj
  cases hvalue

end GraphQLEngine
