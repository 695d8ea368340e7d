/-
What a draft that builds makes of its types.

Types stand under their own names, and the built-in scalars are always the
ones of `BuiltIn.scalars`, whatever the draft defines.  From this it follows
which object types a value can be resolved to (`objectTypeOf_concrete`) and
which values a built-in scalar can give (`admits_of_serialize`).

Which drafts build, and what the others are told, is not said here.
-/
import GraphQLEngine.Proofs.Registration
import GraphQLEngine.Schema.Resolution

namespace GraphQLEngine

variable {ω σ : Type}

/-! ## Registered types -/

namespace SchemaDraft

/-- Every type stands under its own name. -/
def Named (types : OrderedMap (TypeDefinition ω σ)) : Prop :=
  ∀ name definition, (name, definition) ∈ types → definition.name = name

theorem Named.register {types : OrderedMap (TypeDefinition ω σ)} (h : Named types)
    (definition : TypeDefinition ω σ) : Named (register types definition) := by
  intro name d hmem
  rw [SchemaDraft.register] at hmem
  split at hmem
  · exact h name d hmem
  · rcases List.mem_append.mp hmem with hmem | hmem
    · exact h name d hmem
    · cases List.mem_singleton.mp hmem
      rfl

theorem Named.foldl_register : ∀ {types : OrderedMap (TypeDefinition ω σ)}, Named types →
    ∀ definitions : List (TypeDefinition ω σ), Named (definitions.foldl SchemaDraft.register types)
  | _, h, [] => h
  | _, h, definition :: rest => Named.foldl_register (h.register definition) rest

theorem types_of_build {draft : SchemaDraft ω σ} {schema : Schema ω σ}
    (h : draft.build = .ok schema) : schema.types = draft.registered := by
  rw [build] at h
  match hq : draft.query, hv : draft.violations with
  | some query, [] =>
      simp only [hq, hv, Except.ok.injEq] at h
      rw [← h]
  | some _, _ :: _ => simp [hq, hv] at h
  | none, _ => simp [hq] at h

theorem named_of_build {draft : SchemaDraft ω σ} {schema : Schema ω σ}
    (h : draft.build = .ok schema) : Named schema.types := by
  rw [types_of_build h]
  exact Named.foldl_register (fun _ _ hmem => by cases hmem) draft.definitions

/-- The built-in scalars are registered before all other types, so they are never others. -/
theorem type?_of_builtIn {draft : SchemaDraft ω σ} {schema : Schema ω σ}
    (h : draft.build = .ok schema) {t : ScalarType} (ht : t ∈ BuiltIn.scalars) :
    schema.type? t.name = some (.scalar t) := by
  rw [Schema.type?, types_of_build h, registered_get?, type?, definitions, List.find?_append]
  simp only [BuiltIn.scalars, List.mem_cons, List.not_mem_nil, or_false] at ht
  rcases ht with rfl | rfl | rfl | rfl | rfl <;> rfl

end SchemaDraft

/-! ## Object types of values -/

namespace Schema

variable {schema : Schema ω σ}

theorem name_of_type? (h : SchemaDraft.Named schema.types) {name : Name}
    {definition : TypeDefinition ω σ} (ht : schema.type? name = some definition) :
    definition.name = name :=
  h name definition (OrderedMap.mem_of_get? ht)

theorem type?_of_object? {name : Name} {t : ObjectType ω σ} (h : schema.object? name = some t) :
    schema.type? name = some (.object t) := by
  rw [object?] at h
  split at h
  · rw [‹schema.type? name = _›, Option.some.inj h]
  · cases h

/-- A registered object type can be found by its own name. -/
theorem object?_name (hn : SchemaDraft.Named schema.types) {name : Name} {t : ObjectType ω σ}
    (h : schema.object? name = some t) : t.name = name ∧ schema.object? t.name = some t := by
  have hname : t.name = name := name_of_type? hn (type?_of_object? h)
  exact ⟨hname, hname ▸ h⟩

/-- The object types that an object can have where a type is declared: an object type itself, or one
of the possible types of an interface or union. -/
inductive Concrete (schema : Schema ω σ) (name : Name) : ObjectType ω σ → Prop
  | object {t : ObjectType ω σ} : schema.type? name = some (.object t) → Concrete schema name t
  | interface {i : InterfaceType ω σ} {t : ObjectType ω σ} :
      schema.type? name = some (.interface i) → t.name ∈ schema.possibleTypes name →
      schema.object? t.name = some t → Concrete schema name t
  | union {u : UnionType ω} {t : ObjectType ω σ} :
      schema.type? name = some (.union u) → t.name ∈ schema.possibleTypes name →
      schema.object? t.name = some t → Concrete schema name t

theorem possibleObject_listed {abstractType name : Name} {t : ObjectType ω σ}
    (h : schema.possibleObject abstractType name = .ok t) :
    name ∈ schema.possibleTypes abstractType ∧ schema.object? name = some t := by
  rw [possibleObject] at h
  split at h
  · cases h
  · rename_i hsub
    match ho : schema.object? name with
    | none => simp [ho] at h
    | some o =>
        simp only [ho, Except.ok.injEq] at h
        have hlisted : name ∈ (schema.possible.get? abstractType).getD [] := by
          simp only [isSubtype, Bool.or_eq_true, Bool.not_eq_true', Bool.or_eq_false_iff,
            beq_eq_false_iff_ne, beq_iff_eq, List.contains_eq_mem, decide_eq_false_iff_not,
            not_or, not_and, not_not] at hsub
          exact hsub.1 fun heq => hsub.2 heq.symm
        exact ⟨List.mem_append_left _ hlisted, by rw [h]⟩

theorem resolveAbstract_listed {abstractType : Name}
    {resolveType? : Option (ObjectValue ω → Option Name)} {value : ObjectValue ω}
    {t : ObjectType ω σ} (h : schema.resolveAbstract abstractType resolveType? value = .ok t) :
    ∃ name ∈ schema.possibleTypes abstractType, schema.object? name = some t := by
  unfold resolveAbstract at h
  match resolveType?, h with
  | some resolveType, h =>
      match hr : resolveType value with
      | none => simp [hr] at h
      | some name =>
          simp only [hr] at h
          exact ⟨name, possibleObject_listed h⟩
  | none, h =>
      match hm : schema.matching abstractType value with
      | _ :: _ :: _ => simp [hm] at h
      | [t'] =>
          simp only [hm, Except.ok.injEq] at h
          subst h
          have hmem : t' ∈ schema.matching abstractType value := by simp [hm]
          obtain ⟨name, hname, ho⟩ := List.mem_filterMap.mp (List.mem_of_mem_filter hmem)
          exact ⟨name, hname, ho⟩
      | [] =>
          match ht : typenameOf? value with
          | none => simp [hm, ht] at h
          | some name =>
              simp only [hm, ht] at h
              exact ⟨name, possibleObject_listed h⟩

/-- What finding the object type of a value can come to: the declared type, or a possible type of it. -/
theorem objectTypeOf_cases {name : Name} {value : ObjectValue ω} {t : ObjectType ω σ}
    (h : schema.objectTypeOf name value = .ok t) :
    schema.type? name = some (.object t) ∨
      ((∃ i, schema.type? name = some (.interface i)) ∨ ∃ u, schema.type? name = some (.union u)) ∧
        ∃ possible ∈ schema.possibleTypes name, schema.object? possible = some t := by
  have ok_of_mapError : ∀ {ε ε' : Type} {f : ε → ε'} {r : Except ε (ObjectType ω σ)},
      r.mapError f = .ok t → r = .ok t := by
    intro _ _ _ r hr
    cases r with
    | error _ => cases hr
    | ok _ => cases hr; rfl
  rw [objectTypeOf] at h
  match ht : schema.type? name with
  | some (.object o) =>
      simp only [ht] at h
      split at h
      · cases h
      · cases h
        exact .inl rfl
  | some (.interface i) =>
      simp only [ht] at h
      exact .inr ⟨.inl ⟨i, rfl⟩, resolveAbstract_listed (ok_of_mapError h)⟩
  | some (.union u) =>
      simp only [ht] at h
      exact .inr ⟨.inr ⟨u, rfl⟩, resolveAbstract_listed (ok_of_mapError h)⟩
  | some (.scalar _) => simp [ht] at h
  | some (.enum _) => simp [ht] at h
  | none => simp [ht] at h

theorem exists_object?_of_objectTypeOf {name : Name} {value : ObjectValue ω} {t : ObjectType ω σ}
    (h : schema.objectTypeOf name value = .ok t) : ∃ name, schema.object? name = some t := by
  rcases objectTypeOf_cases h with ht | ⟨_, possible, _, ho⟩
  · exact ⟨name, by rw [object?, ht]⟩
  · exact ⟨possible, ho⟩

/-- The object type that is found for a value is one that the declared type has. -/
theorem objectTypeOf_concrete (hn : SchemaDraft.Named schema.types) {name : Name}
    {value : ObjectValue ω} {t : ObjectType ω σ} (h : schema.objectTypeOf name value = .ok t) :
    schema.Concrete name t := by
  rcases objectTypeOf_cases h with ht | ⟨habstract, possible, hpossible, ho⟩
  · exact .object ht
  · obtain ⟨rfl, hself⟩ := object?_name hn ho
    rcases habstract with ⟨i, hi⟩ | ⟨u, hu⟩
    · exact .interface hi hpossible hself
    · exact .union hu hpossible hself

end Schema

/-! ## Values of built-in scalars -/

namespace BuiltIn

/-- A value that is in order for a scalar type, if that is a built-in one. -/
structure Admits (name : Name) (value : Json) : Prop where
  int : name = "Int" → ∃ n, value = .int n ∧ IntRange.signed32 n = true
  float : name = "Float" → ∃ d, value = .float d
  string : name = "String" → ∃ s, value = .str s
  boolean : name = "Boolean" → ∃ b, value = .bool b
  id : name = "ID" → ∃ s, value = .str s

theorem eq_int_of_coerceInt {j k : Json} (h : coerceInt j = .ok k) :
    ∃ n, k = .int n ∧ IntRange.signed32 n = true := by
  rw [coerceInt] at h
  cases j with
  | int n =>
      simp only [Json.asInt64?] at h
      split at h
      · split at h
        · rename_i hm hr
          cases h
          split at hm
          · cases hm
            exact ⟨n, rfl, hr⟩
          · cases hm
        · cases h
      · cases h
  | null | bool _ | float _ | str _ | arr _ | obj _ => cases h

theorem eq_float_of_coerceFloat {j k : Json} (h : coerceFloat j = .ok k) : ∃ d, k = .float d := by
  cases j with
  | float d => cases h; exact ⟨d, rfl⟩
  | int n => cases h; exact ⟨_, rfl⟩
  | null | bool _ | str _ | arr _ | obj _ => cases h

theorem eq_str_of_coerceString {j k : Json} (h : coerceString j = .ok k) : ∃ s, k = .str s := by
  cases j with
  | str s => cases h; exact ⟨s, rfl⟩
  | null | bool _ | int _ | float _ | arr _ | obj _ => cases h

theorem eq_bool_of_coerceBoolean {j k : Json} (h : coerceBoolean j = .ok k) : ∃ b, k = .bool b := by
  cases j with
  | bool b => cases h; exact ⟨b, rfl⟩
  | null | str _ | int _ | float _ | arr _ | obj _ => cases h

theorem eq_str_of_coerceIdentifier {j k : Json} (h : coerceIdentifier j = .ok k) :
    ∃ s, k = .str s := by
  unfold coerceIdentifier at h
  split at h
  · cases h; exact ⟨_, rfl⟩
  · split at h
    · cases h; exact ⟨_, rfl⟩
    · cases h

/-- What a scalar of a built schema serializes is in order, if the scalar is built in. -/
theorem admits_of_serialize {draft : SchemaDraft ω σ} {schema : Schema ω σ}
    (hb : draft.build = .ok schema) {name : Name} {t : ScalarType}
    (ht : schema.type? name = some (.scalar t)) {j k : Json} (h : t.serialize j = .ok k) :
    Admits name k := by
  -- A built-in name stands for the built-in scalar.
  have builtIn : ∀ s ∈ scalars, name = s.name → s.serialize j = .ok k := by
    intro s hs heq
    have hs' := SchemaDraft.type?_of_builtIn hb hs
    rw [← heq, ht] at hs'
    cases hs'
    exact h
  have hint := builtIn _ (.head _)
  have hfloat := builtIn _ (.tail _ (.head _))
  have hstring := builtIn _ (.tail _ (.tail _ (.head _)))
  have hboolean := builtIn _ (.tail _ (.tail _ (.tail _ (.head _))))
  have hid := builtIn _ (.tail _ (.tail _ (.tail _ (.tail _ (.head _)))))
  exact ⟨fun heq => eq_int_of_coerceInt (hint heq), fun heq => eq_float_of_coerceFloat (hfloat heq),
    fun heq => eq_str_of_coerceString (hstring heq),
    fun heq => eq_bool_of_coerceBoolean (hboolean heq),
    fun heq => eq_str_of_coerceIdentifier (hid heq)⟩

end BuiltIn

end GraphQLEngine
