/-
Input values, position by position.

Literals, JSON values and types have items at the same positions, given by a path of
list indices.  Coercing a value coerces what it has at each position to the type that
stands there, and the result has it at the same place (`coerceInput_itemAt?`).  A
value that fails to fit its type fails at an item, or somewhere beside it
(`coerceInput_error_beside`).
-/
import GraphQLEngine.Proofs.InputValues

namespace GraphQLEngine

variable {ω σ : Type}

/-! ## Positions -/

/-- The type of what stands at a path of list indices. -/
def TypeRef.itemAt? : TypeRef → List Nat → Option TypeRef
  | type, [] => some type
  | type, _ :: path => type.item?.bind (fun item => item.itemAt? path)

/-- What stands at a path of list indices. -/
def Json.itemAt? : Json → List Nat → Option Json
  | value, [] => some value
  | .arr items, i :: path => items[i]?.bind (fun item => item.itemAt? path)
  | _, _ :: _ => none

/-- What stands at a path of list indices. -/
def Literal.itemAt? : Literal → List Nat → Option Literal
  | literal, [] => some literal
  | .list items, i :: path => items[i]?.bind (fun item => item.itemAt? path)
  | _, _ :: _ => none

theorem TypeRef.itemAt?_cons_eq_some {type inner : TypeRef} {i : Nat} {path : List Nat}
    (h : type.itemAt? (i :: path) = some inner) :
    ∃ item, type.item? = some item ∧ item.itemAt? path = some inner :=
  Option.bind_eq_some_iff.mp h

theorem Json.itemAt?_cons_eq_some {value inner : Json} {i : Nat} {path : List Nat}
    (h : value.itemAt? (i :: path) = some inner) :
    ∃ items item, value = .arr items ∧ items[i]? = some item ∧ item.itemAt? path = some inner := by
  cases value with
  | arr items =>
      obtain ⟨item, hitem, hinner⟩ := Option.bind_eq_some_iff.mp h
      exact ⟨items, item, rfl, hitem, hinner⟩
  | _ => cases h

theorem Literal.itemAt?_cons_eq_some {literal inner : Literal} {i : Nat} {path : List Nat}
    (h : literal.itemAt? (i :: path) = some inner) :
    ∃ items item, literal = .list items ∧ items[i]? = some item ∧ item.itemAt? path = some inner := by
  cases literal with
  | list items =>
      obtain ⟨item, hitem, hinner⟩ := Option.bind_eq_some_iff.mp h
      exact ⟨items, item, rfl, hitem, hinner⟩
  | _ => cases h

theorem Literal.itemsToJson_eq_map (bindings : JsonObject) :
    ∀ items : List Literal, Literal.itemsToJson bindings items = items.map (Literal.toJson bindings)
  | [] => rfl
  | l :: rest => congrArg (l.toJson bindings :: ·) (itemsToJson_eq_map bindings rest)

/-- The value of a literal has the values of its items in the same places. -/
theorem Literal.itemAt?_toJson (bindings : JsonObject) {inner : Literal} :
    ∀ {path : List Nat} {literal : Literal}, literal.itemAt? path = some inner →
      (literal.toJson bindings).itemAt? path = some (inner.toJson bindings)
  | [], literal, h => by
      cases h
      rfl
  | i :: path, literal, h => by
      obtain ⟨items, item, rfl, hitem, hinner⟩ := Literal.itemAt?_cons_eq_some h
      rw [Literal.toJson, Json.itemAt?, Literal.itemsToJson_eq_map, List.getElem?_map, hitem]
      exact Literal.itemAt?_toJson bindings hinner

/-! ## Coercion at a position -/

theorem exists_getElem?_of_forall₂ {α β : Type} {R : α → β → Prop} {as : List α} {bs : List β}
    (h : List.Forall₂ R as bs) {i : Nat} {a : α} (ha : as[i]? = some a) :
    ∃ b, bs[i]? = some b ∧ R a b := by
  obtain ⟨hi, rfl⟩ := List.getElem?_eq_some_iff.mp ha
  have hi' : i < bs.length := h.length_eq ▸ hi
  exact ⟨bs[i], List.getElem?_eq_getElem hi', h.get hi hi'⟩

namespace Schema

variable {schema : Schema ω σ} {type item : TypeRef} {value result : Json} {reason : InputError}

/-- Coercing a value coerces what it has at a position, and leaves it there. -/
theorem coerceInput_itemAt? {inner : TypeRef} {j : Json} :
    ∀ {path : List Nat} {type : TypeRef} {value result : Json},
      type.itemAt? path = some inner → value.itemAt? path = some j →
      schema.coerceInput type value = .ok result →
      ∃ k, schema.coerceInput inner j = .ok k ∧ result.itemAt? path = some k
  | [], type, value, result, htype, hvalue, h => by
      cases htype
      cases hvalue
      exact ⟨result, h, rfl⟩
  | i :: path, type, value, result, htype, hvalue, h => by
      obtain ⟨item, htype, hinner⟩ := TypeRef.itemAt?_cons_eq_some htype
      obtain ⟨items, first, rfl, hfirst, hj⟩ := Json.itemAt?_cons_eq_some hvalue
      obtain ⟨results, rfl, hall⟩ := exists_of_coerceInput_list (by rintro ⟨⟩) htype h
      obtain ⟨last, hlast, hcoerce⟩ := exists_getElem?_of_forall₂ hall hfirst
      rw [Json.itemAt?, hlast]
      exact coerceInput_itemAt? hinner hj hcoerce

/-- What a coerced value has at a position is the result of coercion to the type that stands there. -/
theorem exists_of_coerceInput_itemAt? {inner : TypeRef} {k : Json} :
    ∀ {path : List Nat} {type : TypeRef} {value result : Json},
      type.itemAt? path = some inner → result.itemAt? path = some k →
      schema.coerceInput type value = .ok result → ∃ j, schema.coerceInput inner j = .ok k
  | [], type, value, result, htype, hresult, h => by
      cases htype
      cases hresult
      exact ⟨value, h⟩
  | i :: path, type, value, result, htype, hresult, h => by
      obtain ⟨item, htype, hinner⟩ := TypeRef.itemAt?_cons_eq_some htype
      obtain ⟨results, last, rfl, hlast, hk⟩ := Json.itemAt?_cons_eq_some hresult
      have hvalue : value ≠ .null := by
        rintro rfl
        cases (eq_null_of_coerceInput_null h).1
      obtain ⟨results', hresults, hall⟩ := exists_of_coerceInput_list hvalue htype h
      cases hresults
      obtain ⟨first, -, hcoerce⟩ := exists_getElem?_of_forall₂ hall.flip hlast
      exact exists_of_coerceInput_itemAt? hinner hk hcoerce

/-- Something that a value has beside a path does not fit the type that stands there. -/
def MisfitBeside (schema : Schema ω σ) (type : TypeRef) (value : Json) (path : List Nat)
    (reason : InputError) : Prop :=
  ∃ other inner j, ¬ other <+: path ∧ ¬ path <+: other ∧ type.itemAt? other = some inner ∧
    value.itemAt? other = some j ∧ schema.coerceInput inner j = .error reason

/-- What does not fit beside a path within an item does not fit beside the path that leads there. -/
theorem MisfitBeside.cons {items : List Json} {i : Nat} {path : List Nat} (hitem : type.item? = some item)
    (hvalue : items[i]? = some value) (h : schema.MisfitBeside item value path reason) :
    schema.MisfitBeside type (.arr items) (i :: path) reason := by
  obtain ⟨other, inner, j, hother, hbeside, hinner, hj, hfail⟩ := h
  refine ⟨i :: other, inner, j, ?_, ?_, ?_, ?_, hfail⟩
  · exact fun hp => hother (List.cons_prefix_cons.mp hp).2
  · exact fun hp => hbeside (List.cons_prefix_cons.mp hp).2
  · rw [TypeRef.itemAt?, hitem]
    exact hinner
  · rw [Json.itemAt?, hvalue]
    exact hj

/-- Other items stand beside a path. -/
theorem MisfitBeside.of_ne {items : List Json} {i i' : Nat} {path : List Nat} (hne : i' ≠ i)
    (hitem : type.item? = some item) (hvalue : items[i']? = some value)
    (h : schema.coerceInput item value = .error reason) :
    schema.MisfitBeside type (.arr items) (i :: path) reason := by
  refine ⟨[i'], item, value, ?_, ?_, ?_, ?_, h⟩
  · exact fun hp => hne (List.cons_prefix_cons.mp hp).1
  · exact fun hp => hne (List.cons_prefix_cons.mp hp).1.symm
  · rw [TypeRef.itemAt?, hitem]
    rfl
  · rw [Json.itemAt?, hvalue]
    rfl

/-- A value that does not fit its type is at fault at a given position, or beside it. -/
theorem coerceInput_error_beside {inner : TypeRef} {j : Json} :
    ∀ {path : List Nat} {type : TypeRef} {value : Json},
      type.itemAt? path = some inner → value.itemAt? path = some j →
      schema.coerceInput type value = .error reason →
      schema.coerceInput inner j = .error reason ∨ schema.MisfitBeside type value path reason
  | [], type, value, htype, hvalue, h => by
      cases htype
      cases hvalue
      exact Or.inl h
  | i :: path, type, value, htype, hvalue, h => by
      obtain ⟨item, hitem, hinner⟩ := TypeRef.itemAt?_cons_eq_some htype
      obtain ⟨items, first, rfl, hfirst, hj⟩ := Json.itemAt?_cons_eq_some hvalue
      obtain ⟨failing, hmem, herror⟩ := exists_of_coerceInput_list_error (by rintro ⟨⟩) hitem h
      obtain ⟨i', hi'⟩ : ∃ i', items[i']? = some failing := List.mem_iff_getElem?.mp hmem
      by_cases hne : i' = i
      · subst hne
        obtain rfl := Option.some.inj (hfirst.symm.trans hi')
        exact (coerceInput_error_beside hinner hj herror).imp id (.cons hitem hfirst)
      · exact Or.inr (.of_ne hne hitem hi' herror)

end Schema

end GraphQLEngine
