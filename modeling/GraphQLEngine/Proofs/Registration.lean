/-
Registering definitions.

The definitions of a draft are registered in turn, the built-in scalars first,
and of definitions with one name the first counts.  `SchemaDraft.type?` is
the definition that a name refers to in the end, whichever comes first, the
reference or the definition (`registered_get?`).  `SchemaDraft.Taken` says
which of the draft's own definitions are ignored.
-/
import GraphQLEngine.Proofs.Collection
import GraphQLEngine.Schema.Draft

namespace GraphQLEngine

variable {ω σ : Type}

/-! ## Keys of maps -/

namespace OrderedMap

variable {α : Type} {key : String}

theorem contains_iff_mem_keys : ∀ {m : OrderedMap α}, m.contains key = true ↔ key ∈ m.keys
  | [] => by simp [contains, keys]
  | (k, a) :: rest => by
      have ih := @contains_iff_mem_keys rest
      by_cases hk : k = key
      · simp [contains, keys, hk]
      · rw [contains, if_neg hk, ih]
        simp [keys, Ne.symm hk]

theorem contains_eq_isSome : ∀ m : OrderedMap α, m.contains key = (m.get? key).isSome
  | [] => rfl
  | (k, a) :: rest => by
      rw [contains, get?]
      split
      · rfl
      · exact contains_eq_isSome rest

theorem get?_eq_none_of_not_mem {m : OrderedMap α} (h : key ∉ m.keys) : m.get? key = none := by
  rw [← contains_iff_mem_keys, contains_eq_isSome, Bool.not_eq_true, Option.isSome_eq_false_iff,
    Option.isNone_iff_eq_none] at h
  exact h

theorem get?_append (more : OrderedMap α) :
    ∀ m : OrderedMap α, get? (m ++ more) key = (m.get? key).or (more.get? key)
  | [] => rfl
  | (k, a) :: rest => by
      rw [List.cons_append, get?, get?]
      split
      · rfl
      · exact get?_append more rest

theorem get?_insert (other : String) (a : α) : ∀ m : OrderedMap α,
    (m.insert other a).get? key = if other = key then some a else m.get? key
  | [] => rfl
  | (k, b) :: rest => by
      rw [insert]
      by_cases hk : k = other
      · subst hk
        rw [if_pos rfl, get?, get?]
        by_cases hkey : k = key
        · rw [if_pos hkey, if_pos hkey]
        · rw [if_neg hkey, if_neg hkey, if_neg hkey]
      · rw [if_neg hk, get?, get?, get?_insert other a rest]
        by_cases hkey : k = key
        · have hother : other ≠ key := fun heq => hk (hkey.trans heq.symm)
          rw [if_pos hkey, if_neg hother, if_pos hkey]
        · rw [if_neg hkey, if_neg hkey]

theorem insert_of_not_contains (a : α) :
    ∀ {m : OrderedMap α}, m.contains key = false → m.insert key a = m ++ [(key, a)]
  | [], _ => rfl
  | (k, b) :: rest, h => by
      rw [contains] at h
      split at h
      · cases h
      · next hk => rw [insert, if_neg hk, insert_of_not_contains a h, List.cons_append]

end OrderedMap

namespace SchemaDraft

/-! ## Names that refer to definitions -/

/-- The definition that a name refers to: the first one, the built-in scalars before the draft's
own. -/
def type? (draft : SchemaDraft ω σ) (name : Name) : Option (TypeDefinition ω σ) :=
  draft.definitions.find? (fun d => d.name == name)

theorem get?_register (types : OrderedMap (TypeDefinition ω σ)) (d : TypeDefinition ω σ)
    (name : Name) :
    (register types d).get? name = (types.get? name).or (if d.name = name then some d else none) := by
  rw [register]
  split
  · rename_i hcontains
    rw [OrderedMap.contains_eq_isSome] at hcontains
    by_cases hname : d.name = name
    · obtain ⟨e, he⟩ := Option.isSome_iff_exists.mp hcontains
      rw [← hname, he, Option.some_or]
    · rw [if_neg hname, Option.or_none]
  · rw [OrderedMap.get?_append]
    rfl

theorem get?_foldl_register (name : Name) :
    ∀ (definitions : List (TypeDefinition ω σ)) (types : OrderedMap (TypeDefinition ω σ)),
      (definitions.foldl register types).get? name =
        (types.get? name).or (definitions.find? (fun d => d.name == name))
  | [], types => (Option.or_none).symm
  | d :: rest, types => by
      rw [List.foldl_cons, get?_foldl_register name rest, get?_register, Option.or_assoc,
        List.find?_cons]
      by_cases hname : d.name = name
      · rw [if_pos hname, hname, beq_self_eq_true, Option.some_or]
      · rw [if_neg hname, beq_eq_false_iff_ne.mpr hname, Option.none_or]

/-- A name finds the same definition in every check, wherever in the draft it is added. -/
theorem registered_get? (draft : SchemaDraft ω σ) (name : Name) :
    draft.registered.get? name = draft.type? name :=
  get?_foldl_register name draft.definitions []

/-! ## Names that are taken -/

/-- A name is one of the given names, or that of one of the first definitions. -/
def TakenBy (names : List Name) (definitions : List (TypeDefinition ω σ)) (i : Nat) (name : Name) :
    Prop :=
  name ∈ names ∨ ∃ d ∈ definitions.take i, d.name = name

/-- A name is that of a built-in scalar, or of one of the first definitions of the draft. -/
def Taken (draft : SchemaDraft ω σ) (i : Nat) (name : Name) : Prop :=
  TakenBy (BuiltIn.scalars.map ScalarType.name) draft.types i name

theorem mem_keys_register {types : OrderedMap (TypeDefinition ω σ)} {d : TypeDefinition ω σ}
    {name : Name} : name ∈ (register types d).keys ↔ name ∈ types.keys ∨ name = d.name := by
  rw [register]
  split
  · rename_i hcontains
    have hmem := OrderedMap.contains_iff_mem_keys.mp hcontains
    exact ⟨.inl, fun h => h.elim id fun hname => hname ▸ hmem⟩
  · simp [OrderedMap.keys]

theorem takenBy_zero {names : List Name} {definitions : List (TypeDefinition ω σ)} {name : Name} :
    TakenBy names definitions 0 name ↔ name ∈ names := by
  simp [TakenBy]

/-- What is taken later is what is taken once the first definition is registered. -/
theorem takenBy_succ {types : OrderedMap (TypeDefinition ω σ)} {d : TypeDefinition ω σ}
    {rest : List (TypeDefinition ω σ)} {i : Nat} {name : Name} :
    TakenBy types.keys (d :: rest) (i + 1) name ↔ TakenBy (register types d).keys rest i name := by
  simp only [TakenBy, mem_keys_register, List.take_succ_cons, List.mem_cons, exists_eq_or_imp,
    eq_comm (a := name), or_assoc]

theorem builtIn_keys :
    OrderedMap.keys ((BuiltIn.scalars.map TypeDefinition.scalar).foldl register
      ([] : OrderedMap (TypeDefinition ω σ))) = BuiltIn.scalars.map ScalarType.name :=
  rfl

/-- Definitions with new names are all registered, in their order. -/
theorem foldl_register_of_new :
    ∀ (definitions : List (TypeDefinition ω σ)) {types : OrderedMap (TypeDefinition ω σ)},
      (∀ i d, definitions[i]? = some d → ¬ TakenBy types.keys definitions i d.name) →
      definitions.foldl register types = types ++ definitions.map fun d => (d.name, d)
  | [], _, _ => by simp
  | d :: rest, types, hnew => by
      have hfirst : types.contains d.name ≠ true := fun h =>
        hnew 0 d rfl (takenBy_zero.mpr (OrderedMap.contains_iff_mem_keys.mp h))
      have hrest : ∀ i e, rest[i]? = some e → ¬ TakenBy (register types d).keys rest i e.name :=
        fun i e he htaken => hnew (i + 1) e he (takenBy_succ.mpr htaken)
      rw [List.foldl_cons, foldl_register_of_new rest hrest, register, if_neg hfirst,
        List.append_assoc, List.map_cons, List.singleton_append]

end SchemaDraft

end GraphQLEngine
