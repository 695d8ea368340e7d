/-
A literal for an argument, and a variable in its place.

A literal without variables can be written where an argument is given; or a variable of
the argument's type can be, to which the request provides the value of the literal, or
which has the literal for its default.  Where the value fits the type, all three bind the
same arguments, or fail for the same reason (`Scope.LiteralsAsVariables.accepted`).  Where
it does not fit, the variable is refused with the request, and the literal is a fault of the
field, for one and the same reason: but the arguments that are declared before it come
first, and the fault of one of them is then the fault of the field
(`parcelField_reports_earlier`).

Whether requests are executed differently is not compared here: a request is refused as a
whole for its variables, and answered with an error for its arguments.
-/
import GraphQLEngine.Proofs.ArgumentBinding
import GraphQLEngine.Proofs.Relevance

namespace GraphQLEngine

variable {ω σ : Type}

/-! ## Variables of literals -/

/-- A literal refers to a variable, itself or in a part. -/
inductive Literal.Mentions (name : Name) : Literal → Prop
  | reference : Mentions name (.variableRef name)
  | item {items : List Literal} {l : Literal} : l ∈ items → Mentions name l → Mentions name (.list items)
  | field {fields : List (Name × Literal)} {key : Name} {l : Literal} : (key, l) ∈ fields →
      Mentions name l → Mentions name (.object fields)

theorem Literal.eq_of_mentions_variableRef {name other : Name}
    (h : (Literal.variableRef other).Mentions name) : name = other := by
  cases h
  rfl

mutual

/-- The value of a literal depends on the variables in it only. -/
theorem Literal.toJson_congr {bindings bindings' : JsonObject} : ∀ l : Literal,
    (∀ name, l.Mentions name → OrderedMap.get? bindings' name = OrderedMap.get? bindings name) →
    l.toJson bindings' = l.toJson bindings
  | .null, _ | .enumValue _, _ | .string _, _ | .float _, _ | .int _, _ | .boolean _, _ => by
      rw [toJson, toJson]
  | .variableRef name, h => by rw [toJson, toJson, h name .reference]
  | .list items, h => by
      rw [toJson, toJson, itemsToJson_congr items fun l hl name hname => h name (.item hl hname)]
  | .object fields, h => by
      rw [toJson, toJson, fieldsToJson_congr fields fun _ l hl name hname => h name (.field hl hname)]

theorem Literal.itemsToJson_congr {bindings bindings' : JsonObject} : ∀ items : List Literal,
    (∀ l ∈ items, ∀ name, l.Mentions name →
      OrderedMap.get? bindings' name = OrderedMap.get? bindings name) →
    itemsToJson bindings' items = itemsToJson bindings items
  | [], _ => by rw [itemsToJson, itemsToJson]
  | l :: rest, h => by
      rw [itemsToJson, itemsToJson, toJson_congr l (h l List.mem_cons_self),
        itemsToJson_congr rest fun l' hl' => h l' (List.mem_cons_of_mem _ hl')]

theorem Literal.fieldsToJson_congr {bindings bindings' : JsonObject} : ∀ fields : List (Name × Literal),
    (∀ key l, (key, l) ∈ fields → ∀ name, l.Mentions name →
      OrderedMap.get? bindings' name = OrderedMap.get? bindings name) →
    fieldsToJson bindings' fields = fieldsToJson bindings fields
  | [], _ => by rw [fieldsToJson, fieldsToJson]
  | (key, l) :: rest, h => by
      rw [fieldsToJson, fieldsToJson, toJson_congr l (h key l List.mem_cons_self),
        fieldsToJson_congr rest fun key' l' hl' => h key' l' (List.mem_cons_of_mem _ hl')]

end

/-- Without variables, a literal has one value. -/
theorem Literal.toJson_of_closed {l : Literal} (h : ∀ name, ¬ l.Mentions name) (bindings : JsonObject) :
    l.toJson bindings = l.toJson [] :=
  l.toJson_congr fun name hname => absurd hname (h name)

theorem Literal.reference?_of_closed {l : Literal} (h : ∀ name, ¬ l.Mentions name) :
    l.reference? = none := by
  cases hl : l.reference? with
  | none => rfl
  | some name =>
      obtain rfl := Literal.reference?_eq_some_iff.mp hl
      exact absurd .reference (h name)

/-! ## Arguments -/

/-- The same field, which gives another literal for an argument. -/
def FieldSelection.replaceArgument (field : Field) (name : Name) (l : Literal) : Field :=
  { field with arguments := field.arguments.map fun a => if a.name = name then { a with value := l } else a }

theorem argument?_replaceArgument (field : Field) (name other : Name) (l : Literal) :
    argument? (field.replaceArgument name l).arguments other =
      if other = name then (argument? field.arguments other).map fun _ => l
      else argument? field.arguments other := by
  have hnames : ∀ a : Argument, (if a.name = name then { a with value := l } else a).name = a.name := by
    intro a
    split <;> rfl
  rw [argument?, argument?, FieldSelection.replaceArgument, List.find?_map]
  simp only [Function.comp_def, hnames]
  cases hfind : field.arguments.find? (fun a => a.name == other) with
  | none => simp
  | some a =>
      have ha : a.name = other := by simpa using List.find?_some hfind
      subst ha
      by_cases hname : a.name = name <;> simp [hname]

namespace Scope

variable {scope scope' : Scope ω σ} {type : TypeRef} {given : Option Literal}

theorem argumentValue_congr {name : Name} {definition : ArgumentDefinition} {given' : Option Literal}
    (h : scope'.givenValue definition.type given' = scope.givenValue definition.type given) :
    scope'.argumentValue name definition given' = scope.argumentValue name definition given := by
  rw [argumentValue, argumentValue, h]

/-- What is given for an argument depends on the variables in it only. -/
theorem givenValue_congr (hschema : scope'.schema = scope.schema)
    (h : ∀ l, given = some l → ∀ name, l.Mentions name →
      OrderedMap.get? scope'.bindings name = OrderedMap.get? scope.bindings name) :
    scope'.givenValue type given = scope.givenValue type given := by
  cases given with
  | none => rfl
  | some l =>
      cases hl : l.reference? with
      | some name =>
          obtain rfl := Literal.reference?_eq_some_iff.mp hl
          rw [givenValue, givenValue, h _ rfl name .reference]
      | none => rw [givenValue_literal hl, givenValue_literal hl, hschema, l.toJson_congr (h l rfl)]

/-- A variable that is bound to what a literal is coerced to gives the same as the literal. -/
theorem givenValue_variableRef_eq {l : Literal} {name : Name} {k : Json}
    (hclosed : ∀ other, ¬ l.Mentions other) (hl : scope.schema.coerceInput type (l.toJson []) = .ok k)
    (hname : OrderedMap.get? scope'.bindings name = some k) :
    scope'.givenValue type (some (.variableRef name)) = scope.givenValue type (some l) := by
  rw [givenValue, hname, givenValue_literal (Literal.reference?_of_closed hclosed),
    l.toJson_of_closed hclosed, hl]
  rfl

end Scope

/-! ## Variables of operations -/

/-- The same operation, which declares one more variable after its first ones. -/
def Operation.insertVariable (operation : Operation) (i : Nat) (d : VariableDefinition) : Operation :=
  { operation with
    variableDefinitions := operation.variableDefinitions.take i ++ d :: operation.variableDefinitions.drop i }

namespace Schema

variable {schema : Schema ω σ} {provided bindings : JsonObject}

/-- Variables are bound one after the other, up to the first that does not fit. -/
theorem bindVariables_append (provided : JsonObject) (after : List VariableDefinition) :
    ∀ (before : List VariableDefinition) (bound : JsonObject),
      schema.bindVariables provided (before ++ after) bound =
        match schema.bindVariables provided before bound with
        | .error reason => .error reason
        | .ok bound' => schema.bindVariables provided after bound'
  | [], bound => rfl
  | d :: before, bound => by
      rw [List.cons_append, bindVariables, bindVariables]
      cases variableInput? provided d with
      | none => exact bindVariables_append provided after before bound
      | some value =>
          cases hvalue : schema.coerceInput d.type value with
          | error reason => simp only [hvalue]
          | ok coerced =>
              simp only [hvalue]
              exact bindVariables_append provided after before _

/-- Variables are bound to the same values beside another one. -/
theorem exists_bindVariables_beside {name : Name} :
    ∀ {definitions : List VariableDefinition} {bound bound' : JsonObject},
      schema.bindVariables provided definitions bound = .ok bindings →
      (∀ other, other ≠ name → OrderedMap.get? bound' other = OrderedMap.get? bound other) →
      ∃ bindings', schema.bindVariables provided definitions bound' = .ok bindings' ∧
        ∀ other, other ≠ name → OrderedMap.get? bindings' other = OrderedMap.get? bindings other
  | [], bound, bound', h, hbeside => by
      cases h
      exact ⟨bound', rfl, hbeside⟩
  | d :: rest, bound, bound', h, hbeside => by
      rcases bindVariables_cons_cases h with ⟨hinput, h⟩ | ⟨input, coerced, hinput, hcoerce, h⟩
      · obtain ⟨bindings', hbind, hbindings⟩ := exists_bindVariables_beside h hbeside
        exact ⟨bindings', by rw [bindVariables, hinput]; exact hbind, hbindings⟩
      · have hinserted : ∀ other, other ≠ name →
            OrderedMap.get? (OrderedMap.insert bound' d.name coerced) other =
              OrderedMap.get? (OrderedMap.insert bound d.name coerced) other := by
          intro other hother
          rw [OrderedMap.get?_insert, OrderedMap.get?_insert, hbeside other hother]
        obtain ⟨bindings', hbind, hbindings⟩ := exists_bindVariables_beside h hinserted
        exact ⟨bindings', by simp only [bindVariables, hinput, hcoerce]; exact hbind, hbindings⟩

/-- Without its last variables, an operation binds what these are then added to. -/
theorem exists_bindVariables_take {operation : Operation}
    (h : schema.coerceVariables operation provided = .ok bindings) (i : Nat) :
    ∃ bound, schema.bindVariables provided (operation.variableDefinitions.take i) [] = .ok bound ∧
      schema.bindVariables provided (operation.variableDefinitions.drop i) bound = .ok bindings := by
  rw [coerceVariables, ← List.take_append_drop i operation.variableDefinitions, bindVariables_append] at h
  cases hbound : schema.bindVariables provided (operation.variableDefinitions.take i) [] with
  | error reason =>
      rw [hbound] at h
      cases h
  | ok bound =>
      rw [hbound] at h
      exact ⟨bound, rfl, h⟩

/-- One more variable with a value decides by its value, once those before it are bound. -/
theorem coerceVariables_insertVariable {operation : Operation} {provided' bound : JsonObject} {i : Nat}
    {d : VariableDefinition} {value : Json}
    (hbound : schema.bindVariables provided (operation.variableDefinitions.take i) [] = .ok bound)
    (hprovided : ∀ d' ∈ operation.variableDefinitions,
      OrderedMap.get? provided' d'.name = OrderedMap.get? provided d'.name)
    (hinput : variableInput? provided' d = some value) :
    schema.coerceVariables (operation.insertVariable i d) provided' =
      match schema.coerceInput d.type value with
      | .error reason => .error (.invalidVariable d.name reason d.location)
      | .ok coerced => schema.bindVariables provided (operation.variableDefinitions.drop i)
          (OrderedMap.insert bound d.name coerced) := by
  have htake : schema.bindVariables provided' (operation.variableDefinitions.take i) [] = .ok bound := by
    rw [bindVariables_congr [] fun d' hd' => hprovided d' (List.mem_of_mem_take hd'), hbound]
  rw [coerceVariables, Operation.insertVariable, bindVariables_append, htake]
  simp only [bindVariables, hinput]
  cases schema.coerceInput d.type value with
  | error reason => rfl
  | ok coerced => exact bindVariables_congr _ fun d' hd' => hprovided d' (List.mem_of_mem_drop hd')

end Schema

/-! ## Literals and variables -/

/-- A variable can take the place of a literal that is given for an argument: the literal has no variables
of its own, and the variable is not in use. -/
structure Substitutes (operation : Operation) (provided : JsonObject) (field : Field) (argument : Name)
    (l : Literal) (name : Name) : Prop where
  closed : ∀ other, ¬ l.Mentions other
  given : ∃ l', argument? field.arguments argument = some l'
  undeclared : ∀ d ∈ operation.variableDefinitions, d.name ≠ name
  unprovided : OrderedMap.get? provided name = none
  unmentioned : ∀ a ∈ field.arguments, a.name ≠ argument → ¬ a.value.Mentions name

namespace Scope

variable {scope : Scope ω σ} {operation : Operation} {provided : JsonObject} {field : Field}
  {argument name : Name} {l : Literal} {definition : ArgumentDefinition}
  {before after : OrderedMap ArgumentDefinition}

/-- Three ways to give a value to an argument: the literal itself, a variable for which the value of the
literal is provided, and a variable with the literal for its default. -/
structure LiteralsAsVariables (scope : Scope ω σ) (operation : Operation) (provided : JsonObject)
    (field : Field) (before : OrderedMap ArgumentDefinition) (argument : Name)
    (definition : ArgumentDefinition) (after : OrderedMap ArgumentDefinition) (l : Literal) (name : Name) :
    Prop where
  /-- Where the value fits, the three come to the same. -/
  accepted : ∀ k, scope.schema.coerceInput definition.type (l.toJson []) = .ok k → ∀ i location,
    ∃ bindings,
      scope.schema.coerceVariables (operation.insertVariable i ⟨name, definition.type, none, location⟩)
        (OrderedMap.insert provided name (l.toJson [])) = .ok bindings ∧
      scope.schema.coerceVariables (operation.insertVariable i ⟨name, definition.type, some l, location⟩)
        provided = .ok bindings ∧
      Scope.coerceArguments { scope with bindings } (field.replaceArgument argument (.variableRef name))
          (before ++ (argument, definition) :: after) =
        scope.coerceArguments (field.replaceArgument argument l) (before ++ (argument, definition) :: after)
  /-- Where it does not fit, the variable is refused. -/
  refused : ∀ reason, scope.schema.coerceInput definition.type (l.toJson []) = .error reason →
    ∀ i location,
      scope.schema.coerceVariables (operation.insertVariable i ⟨name, definition.type, none, location⟩)
        (OrderedMap.insert provided name (l.toJson [])) = .error (.invalidVariable name reason location) ∧
      scope.schema.coerceVariables (operation.insertVariable i ⟨name, definition.type, some l, location⟩)
        provided = .error (.invalidVariable name reason location)
  /-- And so is the argument, if nothing is wrong with those that are declared before it. -/
  reported : ∀ reason, scope.schema.coerceInput definition.type (l.toJson []) = .error reason →
    (∀ fault, ¬ scope.FirstFault (field.replaceArgument argument l) before fault) →
    scope.coerceArguments (field.replaceArgument argument l) (before ++ (argument, definition) :: after) =
      .error (.invalidArgument argument reason)
  /-- A fault of those comes first. -/
  preceded : ∀ fault, scope.FirstFault (field.replaceArgument argument l) before fault →
    scope.coerceArguments (field.replaceArgument argument l) (before ++ (argument, definition) :: after) =
      .error fault

end Scope

namespace Substitutes

variable {operation : Operation} {provided : JsonObject} {field : Field} {argument name : Name}
  {l : Literal}

/-- The value that is provided for the variable is not that of another one. -/
theorem get?_insert (h : Substitutes operation provided field argument l name) (value : Json) :
    ∀ d ∈ operation.variableDefinitions,
      OrderedMap.get? (OrderedMap.insert provided name value) d.name = OrderedMap.get? provided d.name := by
  intro d hd
  rw [OrderedMap.get?_insert, if_neg (Ne.symm (h.undeclared d hd))]

theorem variableInput?_insert (provided : JsonObject) (name : Name) (type : TypeRef)
    (location : Option Location) (value : Json) :
    Schema.variableInput? (OrderedMap.insert provided name value) ⟨name, type, none, location⟩ =
      some value := by
  rw [Schema.variableInput?, OrderedMap.get?_insert, if_pos rfl]

theorem variableInput?_default (h : Substitutes operation provided field argument l name) (type : TypeRef)
    (location : Option Location) :
    Schema.variableInput? provided ⟨name, type, some l, location⟩ = some (l.toJson []) := by
  rw [Schema.variableInput?, h.unprovided]
  rfl

/-- Bound to what the literal is coerced to, the variable gives the same arguments. -/
theorem coerceArguments_eq (h : Substitutes operation provided field argument l name)
    {scope : Scope ω σ} {bindings : JsonObject} {k : Json} {definition : ArgumentDefinition}
    {before after : OrderedMap ArgumentDefinition}
    (hdistinct : (OrderedMap.keys (before ++ (argument, definition) :: after)).Nodup)
    (hk : scope.schema.coerceInput definition.type (l.toJson []) = .ok k)
    (hname : OrderedMap.get? bindings name = some k)
    (hbeside : ∀ other, other ≠ name → OrderedMap.get? bindings other = OrderedMap.get? scope.bindings other) :
    Scope.coerceArguments { scope with bindings } (field.replaceArgument argument (.variableRef name))
        (before ++ (argument, definition) :: after) =
      scope.coerceArguments (field.replaceArgument argument l)
        (before ++ (argument, definition) :: after) := by
  refine Scope.coerceArguments_congr fun n d hmem => Scope.argumentValue_congr ?_
  rw [argument?_replaceArgument, argument?_replaceArgument]
  by_cases hn : n = argument
  · -- Only one argument is declared with the name.
    subst hn
    have hmid : (n, definition) ∈ before ++ (n, definition) :: after :=
      List.mem_append_right _ List.mem_cons_self
    cases List.inj_on_of_nodup_map hdistinct hmem hmid rfl
    obtain ⟨l', hl'⟩ := h.given
    rw [if_pos rfl, if_pos rfl, hl', Option.map_some, Option.map_some]
    exact Scope.givenValue_variableRef_eq h.closed hk hname
  · rw [if_neg hn, if_neg hn]
    refine Scope.givenValue_congr rfl ?_
    intro l' hl' other hother
    refine hbeside other ?_
    rintro rfl
    exact h.unmentioned _ (mem_of_argument? hl') hn hother

/-- A literal for an argument can be replaced by a variable, to which its value is provided or which has it
for a default: but a value that does not fit refuses the request, where the literal is a fault of the
field, unless an argument before it has one. -/
theorem literalsAsVariables (h : Substitutes operation provided field argument l name)
    (scope : Scope ω σ) (hbinds : scope.schema.coerceVariables operation provided = .ok scope.bindings)
    {definition : ArgumentDefinition} {before after : OrderedMap ArgumentDefinition}
    (hdistinct : (OrderedMap.keys (before ++ (argument, definition) :: after)).Nodup) :
    scope.LiteralsAsVariables operation provided field before argument definition after l name where
  accepted := by
    intro k hk i location
    obtain ⟨bound, hbound, hrest⟩ := Schema.exists_bindVariables_take hbinds i
    have hinserted : ∀ other, other ≠ name →
        OrderedMap.get? (OrderedMap.insert bound name k) other = OrderedMap.get? bound other := by
      intro other hother
      rw [OrderedMap.get?_insert, if_neg (Ne.symm hother)]
    obtain ⟨bindings, hbindings, hbeside⟩ := Schema.exists_bindVariables_beside hrest hinserted
    have hname : OrderedMap.get? bindings name = some k := by
      rw [Schema.get?_of_bindVariables hbindings fun d hd => h.undeclared d (List.mem_of_mem_drop hd),
        OrderedMap.get?_insert, if_pos rfl]
    refine ⟨bindings, ?_, ?_, h.coerceArguments_eq hdistinct hk hname hbeside⟩
    · rw [Schema.coerceVariables_insertVariable hbound (h.get?_insert _)
        (variableInput?_insert provided name definition.type location _), hk]
      exact hbindings
    · rw [Schema.coerceVariables_insertVariable hbound (fun _ _ => rfl)
        (h.variableInput?_default definition.type location), hk]
      exact hbindings
  refused := by
    intro reason hreason i location
    obtain ⟨bound, hbound, -⟩ := Schema.exists_bindVariables_take hbinds i
    constructor
    · rw [Schema.coerceVariables_insertVariable hbound (h.get?_insert _)
        (variableInput?_insert provided name definition.type location _), hreason]
    · rw [Schema.coerceVariables_insertVariable hbound (fun _ _ => rfl)
        (h.variableInput?_default definition.type location), hreason]
  reported := by
    intro reason hreason hbefore
    obtain ⟨l', hl'⟩ := h.given
    have hgiven : argument? (field.replaceArgument argument l).arguments argument = some l := by
      rw [argument?_replaceArgument, if_pos rfl, hl', Option.map_some]
    have hfaults : scope.Faults argument definition (some l) (.invalidArgument argument reason) :=
      .misfit rfl (Literal.reference?_of_closed h.closed) (by rw [l.toJson_of_closed h.closed, hreason])
    cases hfirst : scope.coerceArguments (field.replaceArgument argument l) before with
    | error fault => exact absurd (Scope.coerceArguments_eq_error_iff.mp hfirst) (hbefore fault)
    | ok earlier =>
        rw [Scope.coerceArguments_append, hfirst, Scope.coerceArguments, hgiven,
          Scope.argumentValue_of_faults hfaults]
        rfl
  preceded := by
    intro fault hfault
    rw [Scope.coerceArguments_append, Scope.coerceArguments_eq_error_iff.mpr hfault]

end Substitutes

/-! ## A parcel -/

def parcelWeight : ArgumentDefinition := { type := .nonNullNamed "Int" }

def parcelSpeeds : ArgumentDefinition := { type := .list (.nonNullNamed "Speed") }

def parcelField : FieldDefinition Unit Unit where
  name := "send"
  arguments := [("weight", parcelWeight), ("speeds", parcelSpeeds)]
  type := .named "String"

def parcelDraft : SchemaDraft Unit Unit where
  query := some "Query"
  types := [
    .enum { name := "Speed", values := ["SLOW", "FAST"] },
    .object { name := "Query", fields := [("send", parcelField)] }]

def parcelSchema : Schema Unit Unit where
  queryType := "Query"
  mutationType := none
  types := parcelDraft.registered
  possible := SchemaDraft.possibleIndex parcelDraft.registered

def parcelSelection (arguments : List Argument) : Field :=
  ⟨none, "send", arguments, [], [], some ⟨1, 3⟩⟩

def parcelOperation (field : Field) (declared : List VariableDefinition) : Operation where
  kind := .query
  name? := none
  variableDefinitions := declared
  directives := []
  selections := [.field field]
  location := none

/-- The weight is a variable, and a speed is written out. -/
def parcelGiven : Field :=
  parcelSelection [⟨"speeds", .enumValue "SLOW"⟩, ⟨"weight", .variableRef "weight"⟩]

def parcelScope : Scope Unit Unit where
  schema := parcelSchema
  fragments := []
  bindings := [("weight", .int 3)]
  width := none

theorem parcelGiven_substitutes :
    Substitutes (parcelOperation parcelGiven [⟨"weight", .nonNullNamed "Int", none, none⟩])
      [("weight", .int 3)] parcelGiven "speeds" (.enumValue "FAST") "speed" where
  closed := by rintro _ ⟨⟩
  given := ⟨_, rfl⟩
  undeclared := by decide
  unprovided := rfl
  unmentioned := by
    intro a ha hne hmentions
    rcases List.mem_cons.mp ha with rfl | ha
    · exact hne rfl
    · obtain rfl := List.mem_singleton.mp ha
      exact absurd (Literal.eq_of_mentions_variableRef hmentions) (by decide)

/-- One speed for a list of speeds, which is the default of a variable. -/
theorem parcelScope_literalsAsVariables :
    Substitutes (parcelOperation parcelGiven [⟨"weight", .nonNullNamed "Int", none, none⟩])
        [("weight", .int 3)] parcelGiven "speeds" (.enumValue "FAST") "speed" ∧
      parcelSchema.coerceVariables
        (parcelOperation parcelGiven [⟨"weight", .nonNullNamed "Int", none, none⟩]) [("weight", .int 3)] =
          .ok parcelScope.bindings ∧
      parcelField.arguments.keys.Nodup ∧
      ∃ bindings,
        parcelSchema.coerceVariables
          (parcelOperation parcelGiven [⟨"speed", parcelSpeeds.type, some (.enumValue "FAST"), none⟩,
            ⟨"weight", .nonNullNamed "Int", none, none⟩]) [("weight", .int 3)] = .ok bindings ∧
        Scope.coerceArguments { parcelScope with bindings }
          (parcelSelection [⟨"speeds", .variableRef "speed"⟩, ⟨"weight", .variableRef "weight"⟩])
          parcelField.arguments = .ok [("weight", .int 3), ("speeds", .arr [.str "FAST"])] := by
  have hbinds : parcelSchema.coerceVariables
      (parcelOperation parcelGiven [⟨"weight", .nonNullNamed "Int", none, none⟩]) [("weight", .int 3)] =
        .ok parcelScope.bindings := rfl
  have hdistinct : (OrderedMap.keys ([("weight", parcelWeight)] ++ [("speeds", parcelSpeeds)])).Nodup := by
    decide
  refine ⟨parcelGiven_substitutes, hbinds, hdistinct, ?_⟩
  have hall := parcelGiven_substitutes.literalsAsVariables parcelScope hbinds hdistinct
  have hspeed : parcelSchema.coerceInput parcelSpeeds.type (.str "FAST") = .ok (.arr [.str "FAST"]) := rfl
  obtain ⟨bindings, -, hdefault, hsame⟩ := hall.accepted _ hspeed 0 none
  exact ⟨bindings, hdefault, hsame.trans rfl⟩

/-- A literal that does not fit is what its field reports, whatever arguments are declared before it. -/
def Schema.ReportsMisfits (schema : Schema ω σ) : Prop :=
  ∀ (scope : Scope ω σ) (field : Field) (before after : OrderedMap ArgumentDefinition) (argument : Name)
    (definition : ArgumentDefinition) (l : Literal) (reason : InputError), scope.schema = schema →
    (OrderedMap.keys (before ++ (argument, definition) :: after)).Nodup →
    argument? field.arguments argument = some l → (∀ name, ¬ l.Mentions name) →
    schema.coerceInput definition.type (l.toJson []) = .error reason →
    scope.coerceArguments field (before ++ (argument, definition) :: after) =
      .error (.invalidArgument argument reason)

/-- Without a weight, a parcel is not sent for that, whatever the speed. -/
theorem parcelField_reports_earlier :
    parcelDraft.build = .ok parcelSchema ∧ ¬ parcelSchema.ReportsMisfits ∧
      (parcelSchema.execute {
        document := {
          operations := [parcelOperation (parcelSelection [⟨"speeds", .enumValue "LAZY"⟩]) []]
          fragments := [] }
        root := .json [] } ()).ending =
          .responded {
            errors := [{
              message := "argument `weight` of required type Int! was not provided"
              locations := [⟨1, 3⟩]
              path := [.key "send"]
              extensions := [] }]
            data := some [("send", .null)] } := by
  refine ⟨rfl, ?_, by decide +kernel⟩
  intro h
  have hdistinct : (OrderedMap.keys ([("weight", parcelWeight)] ++ [("speeds", parcelSpeeds)])).Nodup := by
    decide
  have hmissing : Scope.coerceArguments ⟨parcelSchema, [], [], none⟩
      (parcelSelection [⟨"speeds", .enumValue "LAZY"⟩])
      ([("weight", parcelWeight)] ++ [("speeds", parcelSpeeds)]) =
        .error (.missingArgument "weight" (.nonNullNamed "Int")) := rfl
  have hmisfit : parcelSchema.coerceInput parcelSpeeds.type (Literal.toJson [] (.enumValue "LAZY")) =
      .error (.notInEnum (.str "LAZY") "Speed") := rfl
  have hreported := h ⟨parcelSchema, [], [], none⟩ (parcelSelection [⟨"speeds", .enumValue "LAZY"⟩])
    _ _ _ _ _ _ rfl hdistinct rfl (by rintro _ ⟨⟩) hmisfit
  rw [hmissing] at hreported
  cases hreported

end GraphQLEngine
