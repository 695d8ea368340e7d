/-
Coercion to built-in types is a retraction.

`Schema.Value` says which JSON values are the values of an input type.  Coercion to a type
below whose lists a built-in scalar or an enumeration stands gives such values only, and
leaves them as they are (`coerceInput_retracts`); so the values of the type are just what
coercion gives.

Other scalars have no values in this sense.  What their coercion does to its own results is
theirs to decide (Proofs/VariableValues).
-/
import GraphQLEngine.Proofs.BuiltSchema
import GraphQLEngine.Proofs.InputPositions

namespace GraphQLEngine

variable {ω σ : Type}

/-! ## Values of built-in types -/

namespace BuiltIn

/-- Results and inputs are coerced alike. -/
theorem serialize_eq_parse : ∀ t ∈ scalars, t.serialize = t.parse := by
  simp only [scalars, List.forall_mem_cons]
  exact ⟨rfl, rfl, rfl, rfl, rfl, fun _ h => absurd h List.not_mem_nil⟩

theorem coerceInt_int {n : Int} (h : IntRange.signed32 n = true) : coerceInt (.int n) = .ok (.int n) := by
  have hwide : IntRange.signed64 n = true := by
    simp only [IntRange.signed32, IntRange.signed64, decide_eq_true_eq] at h ⊢
    omega
  simp [coerceInt, Json.asInt64?, hwide, h]

/-- What a built-in scalar admits is not null, and is coerced to itself. -/
theorem parse_of_admits : ∀ t ∈ scalars, ∀ value, Admits t.name value →
    value ≠ .null ∧ t.parse value = .ok value := by
  simp only [scalars, List.forall_mem_cons]
  refine ⟨?_, ?_, ?_, ?_, ?_, fun _ h => absurd h List.not_mem_nil⟩
  · intro value h
    obtain ⟨n, rfl, hn⟩ := h.int rfl
    exact ⟨by rintro ⟨⟩, coerceInt_int hn⟩
  · intro value h
    obtain ⟨d, rfl⟩ := h.float rfl
    exact ⟨by rintro ⟨⟩, rfl⟩
  · intro value h
    obtain ⟨s, rfl⟩ := h.string rfl
    exact ⟨by rintro ⟨⟩, rfl⟩
  · intro value h
    obtain ⟨b, rfl⟩ := h.boolean rfl
    exact ⟨by rintro ⟨⟩, rfl⟩
  · intro value h
    obtain ⟨s, rfl⟩ := h.id rfl
    exact ⟨by rintro ⟨⟩, rfl⟩

end BuiltIn

theorem EnumType.has_iff {t : EnumType} {value : Json} :
    t.has value = true ↔ ∃ member ∈ t.values, value = .str member := by
  cases value <;> simp [has]

namespace Schema

/-- A value of an input type: null where the type admits it, and otherwise a list of values of its items,
what a built-in scalar admits, or the name of a member of an enumeration. -/
inductive Value (schema : Schema ω σ) : TypeRef → Json → Prop
  | null {type : TypeRef} : type.isNonNull = false → Value schema type .null
  | list {type item : TypeRef} {items : List Json} : type.item? = some item →
      (∀ j ∈ items, Value schema item j) → Value schema type (.arr items)
  | scalar {type : TypeRef} {t : ScalarType} {j : Json} : type.item? = none → t ∈ BuiltIn.scalars →
      t.name = type.innerName → BuiltIn.Admits type.innerName j → Value schema type j
  | member {type : TypeRef} {t : EnumType} {member : Name} : type.item? = none →
      schema.type? type.innerName = some (.enum t) → member ∈ t.values → Value schema type (.str member)

/-- A name is that of a built-in scalar or of an enumeration. -/
def HasValues (schema : Schema ω σ) (name : Name) : Prop :=
  (∃ t ∈ BuiltIn.scalars, t.name = name) ∨ ∃ t, schema.type? name = some (.enum t)

variable {draft : SchemaDraft ω σ} {schema : Schema ω σ} {type : TypeRef} {value result : Json}

theorem coerceNamedInput_enum {name : Name} {t : EnumType} (htype : schema.type? name = some (.enum t))
    (hhas : t.has value = true) : schema.coerceNamedInput name value = .ok value := by
  simp only [coerceNamedInput, htype, hhas, if_true]

/-! ## Coercion -/

/-- Where no list is expected, coercion gives a value of the type. -/
theorem value_of_coerceNamedInput (hb : draft.build = .ok schema) (hvalues : schema.HasValues type.innerName)
    (hitem : type.item? = none) (h : schema.coerceNamedInput type.innerName value = .ok result) :
    schema.Value type result := by
  rcases coerceNamedInput_cases h with ⟨t, htype, hparse⟩ | ⟨t, htype, hhas, rfl⟩
  · rcases hvalues with ⟨s, hs, hname⟩ | ⟨s, hs⟩
    · have hbuiltIn := SchemaDraft.type?_of_builtIn hb hs
      rw [hname, htype] at hbuiltIn
      cases hbuiltIn
      rw [← BuiltIn.serialize_eq_parse t hs] at hparse
      exact .scalar hitem hs hname (BuiltIn.admits_of_serialize hb htype hparse)
    · cases htype.symm.trans hs
  · obtain ⟨member, hmember, rfl⟩ := EnumType.has_iff.mp hhas
    exact .member hitem htype hmember

/-- Coercion gives values of the type only. -/
theorem value_of_coerceInput (hb : draft.build = .ok schema) :
    ∀ (type : TypeRef), schema.HasValues type.innerName → ∀ {value result : Json},
      schema.coerceInput type value = .ok result → schema.Value type result := by
  intro type
  induction type using TypeRef.inductOnItem with
  | leaf type hitem =>
      intro hvalues value result h
      by_cases hvalue : value = .null
      · obtain ⟨rfl, hnonNull⟩ := eq_null_of_coerceInput_null (hvalue ▸ h)
        exact .null hnonNull
      · rw [coerceInput_leaf hvalue hitem] at h
        exact value_of_coerceNamedInput hb hvalues hitem h
  | list type item hitem ih =>
      intro hvalues value result h
      by_cases hvalue : value = .null
      · obtain ⟨rfl, hnonNull⟩ := eq_null_of_coerceInput_null (hvalue ▸ h)
        exact .null hnonNull
      · obtain ⟨results, rfl, hall⟩ := exists_of_coerceInput_list hvalue hitem h
        rw [← TypeRef.innerName_of_item? hitem] at hvalues
        refine .list hitem fun k hk => ?_
        obtain ⟨i, hi⟩ := List.mem_iff_getElem?.mp hk
        obtain ⟨j, -, hj⟩ := exists_getElem?_of_forall₂ hall.flip hi
        exact ih hvalues hj

/-- Coercion leaves the values of the type as they are. -/
theorem coerceInput_of_value (hb : draft.build = .ok schema) (h : schema.Value type value) :
    schema.coerceInput type value = .ok value := by
  induction h with
  | null hnonNull => rw [coerceInput_null, hnonNull]; rfl
  | list hitem _ ih =>
      rw [coerceInput_list (by rintro ⟨⟩) hitem, itemsOf,
        coerceItems_eq_ok_iff.mpr (List.forall₂_same.mpr ih)]
      rfl
  | scalar hitem ht hname hadmits =>
      obtain ⟨hnull, hparse⟩ := BuiltIn.parse_of_admits _ ht _ (hname ▸ hadmits)
      have htype := SchemaDraft.type?_of_builtIn hb ht
      rw [hname] at htype
      rw [coerceInput_leaf hnull hitem]
      exact coerceNamedInput_scalar htype hparse
  | member hitem htype hmember =>
      rw [coerceInput_leaf (by rintro ⟨⟩) hitem]
      exact coerceNamedInput_enum htype (EnumType.has_iff.mpr ⟨_, hmember, rfl⟩)

/-- Coercion maps JSON values to the values of a type, and these to themselves. -/
structure Retracts (schema : Schema ω σ) (type : TypeRef) : Prop where
  value : ∀ value result, schema.coerceInput type value = .ok result → schema.Value type result
  unchanged : ∀ value, schema.Value type value → schema.coerceInput type value = .ok value
  twice : ∀ value,
    (schema.coerceInput type value).bind (schema.coerceInput type) = schema.coerceInput type value

/-- Coercion is a retraction onto the values of a type, if a built-in scalar or an enumeration stands below
its lists. -/
theorem coerceInput_retracts (hb : draft.build = .ok schema) (hvalues : schema.HasValues type.innerName) :
    schema.Retracts type where
  value := fun _ _ h => value_of_coerceInput hb type hvalues h
  unchanged := fun _ h => coerceInput_of_value hb h
  twice := by
    intro value
    cases h : schema.coerceInput type value with
    | error reason => rfl
    | ok result => exact coerceInput_of_value hb (value_of_coerceInput hb type hvalues h)

end Schema

/-! ## A palette -/

def paletteDraft : SchemaDraft Unit Unit where
  query := some "Query"
  types := [
    .enum { name := "Colour", values := ["RED", "BLUE"] },
    .object { name := "Query", fields := [("best", { name := "best", type := .named "Colour" })] }]

def paletteSchema : Schema Unit Unit where
  queryType := "Query"
  mutationType := none
  types := paletteDraft.registered
  possible := SchemaDraft.possibleIndex paletteDraft.registered

/-- Single colours become lists of one, at the level at which they are met, and lists stay lists. -/
theorem paletteSchema_retracts :
    paletteDraft.build = .ok paletteSchema ∧ paletteSchema.HasValues "Colour" ∧
      paletteSchema.coerceInput (.list (.list (.nonNullNamed "Colour")))
          (.arr [.str "RED", .null, .arr [.str "BLUE", .str "RED"]]) =
        .ok (.arr [.arr [.str "RED"], .null, .arr [.str "BLUE", .str "RED"]]) ∧
      paletteSchema.Value (.list (.list (.nonNullNamed "Colour")))
        (.arr [.arr [.str "RED"], .null, .arr [.str "BLUE", .str "RED"]]) := by
  have hb : paletteDraft.build = .ok paletteSchema := rfl
  have hvalues : paletteSchema.HasValues "Colour" := .inr ⟨_, rfl⟩
  have hcoerced : paletteSchema.coerceInput (.list (.list (.nonNullNamed "Colour")))
      (.arr [.str "RED", .null, .arr [.str "BLUE", .str "RED"]]) =
        .ok (.arr [.arr [.str "RED"], .null, .arr [.str "BLUE", .str "RED"]]) := rfl
  have hretracts : paletteSchema.Retracts (.list (.list (.nonNullNamed "Colour"))) :=
    Schema.coerceInput_retracts hb hvalues
  exact ⟨hb, hvalues, hcoerced, hretracts.value _ _ hcoerced⟩

end GraphQLEngine
