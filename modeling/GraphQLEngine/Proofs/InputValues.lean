/-
What coercion of input values comes to.

For each function that coerces, the lemmas here say what its success gives and which
part a failure stems from.  What is proved about the values of variables and arguments
goes through them.
-/
import GraphQLEngine.Input.Arguments
import GraphQLEngine.Input.Variables
import GraphQLEngine.Proofs.Completion
import GraphQLEngine.Proofs.Registration
import Mathlib.Data.List.Forall2

namespace GraphQLEngine

variable {ω σ : Type}

/-! ## Values -/

/-- Types are lists of types, or have no items. -/
theorem TypeRef.inductOnItem {P : TypeRef → Prop} (leaf : ∀ type, type.item? = none → P type)
    (list : ∀ type item, type.item? = some item → P item → P type) : ∀ type, P type
  | .named _ => leaf _ rfl
  | .nonNullNamed _ => leaf _ rfl
  | .list item => list _ item rfl (inductOnItem leaf list item)
  | .nonNullList item => list _ item rfl (inductOnItem leaf list item)

theorem TypeRef.innerName_of_item? {type item : TypeRef} (h : type.item? = some item) :
    item.innerName = type.innerName := by
  cases type with
  | named _ => cases h
  | nonNullNamed _ => cases h
  | list _ => cases h; rfl
  | nonNullList _ => cases h; rfl

namespace Schema

variable {schema : Schema ω σ} {type item : TypeRef} {name : Name} {value result : Json}

/-- What coercion to a named type gives: what its scalar parses, or a member of its enumeration. -/
theorem coerceNamedInput_cases (h : schema.coerceNamedInput name value = .ok result) :
    (∃ t, schema.type? name = some (.scalar t) ∧ t.parse value = .ok result) ∨
    (∃ t, schema.type? name = some (.enum t) ∧ t.has value = true ∧ result = value) := by
  rw [coerceNamedInput] at h
  cases htype : schema.type? name with
  | none =>
      rw [htype] at h
      cases h
  | some definition =>
      rw [htype] at h
      cases definition with
      | scalar t =>
          cases hparse : t.parse value with
          | error message =>
              simp only [hparse] at h
              cases h
          | ok j =>
              simp only [hparse] at h
              cases h
              exact Or.inl ⟨t, rfl, hparse⟩
      | enum t =>
          cases hhas : t.has value with
          | false =>
              simp only [hhas] at h
              cases h
          | true =>
              simp only [hhas, if_true] at h
              cases h
              exact Or.inr ⟨t, rfl, hhas, rfl⟩
      | object _ | interface _ | union _ => cases h

theorem coerceNamedInput_scalar {t : ScalarType} (htype : schema.type? name = some (.scalar t))
    (hparse : t.parse value = .ok result) : schema.coerceNamedInput name value = .ok result := by
  simp only [coerceNamedInput, htype, hparse]

theorem coerceInput_null (schema : Schema ω σ) (type : TypeRef) :
    schema.coerceInput type .null =
      if type.isNonNull then .error (.nullForNonNull type) else .ok .null := by
  rw [coerceInput.eq_def]
  rfl

theorem eq_null_of_coerceInput_null (h : schema.coerceInput type .null = .ok result) :
    result = .null ∧ type.isNonNull = false := by
  rw [coerceInput_null] at h
  cases hnonNull : type.isNonNull with
  | true =>
      rw [hnonNull] at h
      cases h
  | false =>
      rw [hnonNull] at h
      cases h
      exact ⟨rfl, rfl⟩

theorem eq_of_coerceInput_null_error {reason : InputError} (h : schema.coerceInput type .null = .error reason) :
    reason = .nullForNonNull type := by
  rw [coerceInput_null] at h
  split at h <;> cases h
  rfl

theorem coerceInput_leaf (hvalue : value ≠ .null) (htype : type.item? = none) :
    schema.coerceInput type value = schema.coerceNamedInput type.innerName value := by
  have hnull : ¬ value.isNull = true := mt Json.isNull_iff.mp hvalue
  cases type with
  | named name | nonNullNamed name => rw [coerceInput, if_neg hnull]; rfl
  | list inner | nonNullList inner => cases htype

theorem coerceInput_list (hvalue : value ≠ .null) (htype : type.item? = some item) :
    schema.coerceInput type value =
      (coerceItems (schema.coerceInput item) (itemsOf value)).map .arr := by
  have hnull : ¬ value.isNull = true := mt Json.isNull_iff.mp hvalue
  cases type with
  | named name | nonNullNamed name => cases htype
  | list inner | nonNullList inner =>
      cases htype
      rw [coerceInput, if_neg hnull]

/-- Coercion of a list yields the results for its items, each in its place. -/
theorem coerceItems_eq_ok_iff {coerce : Json → Except InputError Json} :
    ∀ {items results : List Json}, coerceItems coerce items = .ok results ↔
      List.Forall₂ (fun j k => coerce j = .ok k) items results
  | [], results => by
      rw [coerceItems, List.forall₂_nil_left_iff, Except.ok.injEq]
      exact eq_comm
  | j :: rest, results => by
      rw [coerceItems, List.forall₂_cons_left_iff]
      cases hj : coerce j with
      | error e => simp
      | ok k =>
          cases hrest : coerceItems coerce rest with
          | error e =>
              have hnone : ∀ ks, ¬ List.Forall₂ (fun j k => coerce j = .ok k) rest ks := by
                intro ks hks
                rw [coerceItems_eq_ok_iff.mpr hks] at hrest
                cases hrest
              simp [hnone]
          | ok ks =>
              have hall := coerceItems_eq_ok_iff.mp hrest
              simp only [Except.ok.injEq]
              constructor
              · rintro rfl
                exact ⟨k, ks, rfl, hall, rfl⟩
              · rintro ⟨k', ks', rfl, hks', rfl⟩
                have hsame := coerceItems_eq_ok_iff.mpr hks'
                rw [hrest, Except.ok.injEq] at hsame
                rw [hsame]

theorem exists_of_coerceItems_error {coerce : Json → Except InputError Json} {reason : InputError} :
    ∀ {items : List Json}, coerceItems coerce items = .error reason →
      ∃ item ∈ items, coerce item = .error reason
  | item :: rest, h => by
      rw [coerceItems] at h
      cases hitem : coerce item with
      | error reason' =>
          simp only [hitem, Except.error.injEq] at h
          exact ⟨item, List.mem_cons_self, by rw [hitem, h]⟩
      | ok _ =>
          simp only [hitem] at h
          cases hrest : coerceItems coerce rest with
          | ok _ =>
              rw [hrest] at h
              cases h
          | error reason' =>
              simp only [hrest, Except.error.injEq] at h
              obtain ⟨item', hmem, herror⟩ := exists_of_coerceItems_error hrest
              exact ⟨item', List.mem_cons_of_mem _ hmem, by rw [herror, h]⟩

/-- A value other than null fails to fit a list type through one of its items. -/
theorem exists_of_coerceInput_list_error {reason : InputError} (hvalue : value ≠ .null)
    (htype : type.item? = some item) (h : schema.coerceInput type value = .error reason) :
    ∃ j ∈ itemsOf value, schema.coerceInput item j = .error reason := by
  rw [coerceInput_list hvalue htype] at h
  cases hitems : coerceItems (schema.coerceInput item) (itemsOf value) with
  | ok results =>
      rw [hitems] at h
      cases h
  | error reason' =>
      rw [hitems] at h
      cases h
      exact exists_of_coerceItems_error hitems

/-- What coercion to a list type gives for a value other than null. -/
theorem exists_of_coerceInput_list (hvalue : value ≠ .null) (htype : type.item? = some item)
    (h : schema.coerceInput type value = .ok result) :
    ∃ results, result = .arr results ∧
      List.Forall₂ (fun j k => schema.coerceInput item j = .ok k) (itemsOf value) results := by
  rw [coerceInput_list hvalue htype] at h
  cases hitems : coerceItems (schema.coerceInput item) (itemsOf value) with
  | error e =>
      rw [hitems] at h
      cases h
  | ok results =>
      rw [hitems] at h
      cases h
      exact ⟨results, rfl, coerceItems_eq_ok_iff.mp hitems⟩

/-! ## Variables -/

variable {provided bindings : JsonObject}

/-- A variable is left unbound, or is bound to the result of coercion to its type. -/
theorem bindVariables_cons_cases {d : VariableDefinition} {rest : List VariableDefinition} {bound : JsonObject}
    (h : schema.bindVariables provided (d :: rest) bound = .ok bindings) :
    (variableInput? provided d = none ∧ schema.bindVariables provided rest bound = .ok bindings) ∨
    (∃ input coerced, variableInput? provided d = some input ∧
      schema.coerceInput d.type input = .ok coerced ∧
      schema.bindVariables provided rest (OrderedMap.insert bound d.name coerced) = .ok bindings) := by
  rw [bindVariables] at h
  cases hinput : variableInput? provided d with
  | none =>
      rw [hinput] at h
      exact Or.inl ⟨rfl, h⟩
  | some input =>
      cases hcoerce : schema.coerceInput d.type input with
      | error reason =>
          simp only [hinput, hcoerce] at h
          cases h
      | ok coerced =>
          simp only [hinput, hcoerce] at h
          exact Or.inr ⟨input, coerced, rfl, hcoerce, h⟩

/-- What a variable is bound to was bound before, or is the result of coercion to a type with which it
is declared. -/
theorem exists_of_bindVariables :
    ∀ {definitions : List VariableDefinition} {bound : JsonObject},
      schema.bindVariables provided definitions bound = .ok bindings →
      OrderedMap.get? bindings name = some value →
      OrderedMap.get? bound name = some value ∨
        ∃ d ∈ definitions, d.name = name ∧ ∃ input, schema.coerceInput d.type input = .ok value
  | [], bound, h, hvalue => by
      cases h
      exact Or.inl hvalue
  | d :: rest, bound, h, hvalue => by
      have later : (∃ d' ∈ rest, d'.name = name ∧ ∃ input, schema.coerceInput d'.type input = .ok value) →
          ∃ d' ∈ d :: rest, d'.name = name ∧ ∃ input, schema.coerceInput d'.type input = .ok value :=
        fun ⟨d', hmem, hd'⟩ => ⟨d', List.mem_cons_of_mem _ hmem, hd'⟩
      rcases bindVariables_cons_cases h with ⟨-, h⟩ | ⟨input, coerced, -, hcoerce, h⟩
      · exact (exists_of_bindVariables h hvalue).imp id later
      · rcases exists_of_bindVariables h hvalue with hbound | hrest
        · rw [OrderedMap.get?_insert] at hbound
          by_cases hname : d.name = name
          · rw [if_pos hname, Option.some.injEq] at hbound
            exact Or.inr ⟨d, List.mem_cons_self, hname, input, hbound ▸ hcoerce⟩
          · rw [if_neg hname] at hbound
            exact Or.inl hbound
        · exact Or.inr (later hrest)

end Schema

/-! ## Arguments -/

namespace Scope

variable {scope : Scope ω σ} {field : Field} {name : Name} {definition : ArgumentDefinition}

theorem exists_of_coerceArguments_cons {rest : OrderedMap ArgumentDefinition} {arguments : JsonObject}
    (h : scope.coerceArguments field ((name, definition) :: rest) = .ok arguments) :
    ∃ value later, scope.argumentValue name definition (argument? field.arguments name) = .ok value ∧
      scope.coerceArguments field rest = .ok later ∧
      ∀ other, OrderedMap.get? arguments other =
        (if name = other then value else none).or (OrderedMap.get? later other) := by
  rw [coerceArguments] at h
  cases hvalue : scope.argumentValue name definition (argument? field.arguments name) with
  | error fault =>
      simp only [hvalue] at h
      cases h
  | ok value =>
      cases hlater : scope.coerceArguments field rest with
      | error fault => cases value <;> simp [hvalue, hlater, Except.map] at h
      | ok later =>
          refine ⟨value, later, rfl, rfl, fun other => ?_⟩
          cases value with
          | none =>
              simp only [hvalue, hlater, Except.ok.injEq] at h
              rw [← h, ite_self, Option.none_or]
          | some j =>
              simp only [hvalue, hlater, Except.map, Except.ok.injEq] at h
              rw [← h, OrderedMap.get?]
              by_cases hname : name = other
              · rw [if_pos hname, if_pos hname, Option.some_or]
              · rw [if_neg hname, if_neg hname, Option.none_or]

theorem get?_of_coerceArguments :
    ∀ {definitions : OrderedMap ArgumentDefinition} {arguments : JsonObject}, name ∉ definitions.keys →
      scope.coerceArguments field definitions = .ok arguments → OrderedMap.get? arguments name = none
  | [], arguments, _, h => by
      cases h
      rfl
  | (n, d) :: rest, arguments, hname, h => by
      obtain ⟨hn, hrest⟩ := not_or.mp (mt List.mem_cons.mpr hname)
      obtain ⟨value, later, -, hlater, hget⟩ := exists_of_coerceArguments_cons h
      rw [hget, if_neg (Ne.symm hn), Option.none_or]
      exact get?_of_coerceArguments hrest hlater

/-- Each argument has the value that was made of what is given for it. -/
theorem argumentValue_of_coerceArguments :
    ∀ {definitions : OrderedMap ArgumentDefinition} {arguments : JsonObject}, definitions.keys.Nodup →
      (name, definition) ∈ definitions → scope.coerceArguments field definitions = .ok arguments →
      scope.argumentValue name definition (argument? field.arguments name) =
        .ok (OrderedMap.get? arguments name)
  | (n, d) :: rest, arguments, hnodup, hmem, h => by
      obtain ⟨hn, hrest⟩ := List.nodup_cons.mp hnodup
      obtain ⟨value, later, hvalue, hlater, hget⟩ := exists_of_coerceArguments_cons h
      rcases List.mem_cons.mp hmem with hhead | hmem
      · cases hhead
        rw [hvalue, hget, if_pos rfl, get?_of_coerceArguments hn hlater, Option.or_none]
      · have hne : n ≠ name := by
          rintro rfl
          exact hn (List.mem_map.mpr ⟨_, hmem, rfl⟩)
        rw [hget, if_neg hne, Option.none_or]
        exact argumentValue_of_coerceArguments hrest hmem hlater

/-- A fault is that of the first argument, or of the others. -/
theorem coerceArguments_cons_error_cases {rest : OrderedMap ArgumentDefinition} {fault : FieldFault}
    (h : scope.coerceArguments field ((name, definition) :: rest) = .error fault) :
    scope.argumentValue name definition (argument? field.arguments name) = .error fault ∨
      scope.coerceArguments field rest = .error fault := by
  rw [coerceArguments] at h
  cases hvalue : scope.argumentValue name definition (argument? field.arguments name) with
  | error fault' =>
      simp only [hvalue] at h
      cases h
      exact Or.inl rfl
  | ok value =>
      rw [hvalue] at h
      cases value with
      | none => exact Or.inr h
      | some j =>
          cases hlater : scope.coerceArguments field rest with
          | error fault' =>
              rw [hlater] at h
              cases h
              exact Or.inr rfl
          | ok later =>
              rw [hlater] at h
              cases h

/-- A fault of the arguments is that of one of them. -/
theorem exists_of_coerceArguments_error {fault : FieldFault} :
    ∀ {definitions : OrderedMap ArgumentDefinition}, scope.coerceArguments field definitions = .error fault →
      ∃ n d, (n, d) ∈ definitions ∧
        scope.argumentValue n d (argument? field.arguments n) = .error fault
  | (n, d) :: rest, h => by
      rcases coerceArguments_cons_error_cases h with hfirst | hlater
      · exact ⟨n, d, List.mem_cons_self, hfirst⟩
      · obtain ⟨n', d', hmem, herror⟩ := exists_of_coerceArguments_error hlater
        exact ⟨n', d', List.mem_cons_of_mem _ hmem, herror⟩

/-- Where a list is expected, a list literal either does not fit or becomes the argument. -/
theorem argumentValue_list {items : List Literal} {item : TypeRef} (htype : definition.type.item? = some item) :
    scope.argumentValue name definition (some (.list items)) =
      match scope.schema.coerceInput definition.type ((Literal.list items).toJson scope.bindings) with
      | .error reason => .error (.invalidArgument name reason)
      | .ok j => .ok (some j) := by
  have hgiven : scope.givenValue definition.type (some (.list items)) =
      (scope.schema.coerceInput definition.type ((Literal.list items).toJson scope.bindings)).map some := rfl
  rw [argumentValue, hgiven]
  cases hcoerce : scope.schema.coerceInput definition.type ((Literal.list items).toJson scope.bindings) with
  | error reason => rfl
  | ok j =>
      have hlist : (Literal.list items).toJson scope.bindings ≠ .null := by
        rw [Literal.toJson]
        rintro ⟨⟩
      obtain ⟨results, rfl, -⟩ := Schema.exists_of_coerceInput_list hlist htype hcoerce
      rfl

/-- The fault of an argument names it. -/
theorem eq_of_argumentValue_error {given : Option Literal} {other : Name} {reason : InputError}
    (h : scope.argumentValue name definition given = .error (.invalidArgument other reason)) :
    name = other := by
  rw [argumentValue] at h
  split at h
  · cases h
    rfl
  · split at h
    · split at h <;> cases h
    · split at h <;> cases h
      rfl

end Scope

end GraphQLEngine
