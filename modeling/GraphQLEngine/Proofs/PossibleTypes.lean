/-
The index of possible types.

The index is one fold over the registered types, in which each type enters names
under abstract types (`TypeDefinition.enters`).  Whatever else is entered, under one
abstract type stand the names that the types enter there, in the order of the types
and each once (`SchemaDraft.listed_possibleIndex`).

In a schema that a draft builds, this makes the possible types of a name what the
draft's definitions say, in whatever order they are added: those that implement an
interface, the members of a union, and an object type itself
(`SchemaDraft.decidesPossible`).  That the names lead to object types is shown in
Proofs/References.
-/
import GraphQLEngine.Proofs.References
import GraphQLEngine.Proofs.Traversal

namespace GraphQLEngine

variable {ω σ : Type}

/-! ## Adding what is new -/

theorem foldl_insertNew_eraseDups : ∀ later names : List String,
    later.foldl insertNew names.eraseDups = (names ++ later).eraseDups
  | [], names => by rw [List.foldl_nil, List.append_nil]
  | name :: later, names => by
      rw [List.foldl_cons, insertNew_eraseDups, foldl_insertNew_eraseDups, List.append_assoc,
        List.singleton_append]

theorem nodup_foldl_insertNew : ∀ (later : List String) {names : List String}, names.Nodup →
    (later.foldl insertNew names).Nodup
  | [], _, h => h
  | name :: later, _, h => nodup_foldl_insertNew later (nodup_insertNew h name)

theorem foldl_insertNew_nil (names : List String) : names.foldl insertNew [] = names.eraseDups :=
  foldl_insertNew_eraseDups names []

theorem nodup_eraseDups (names : List String) : names.eraseDups.Nodup := by
  rw [← foldl_insertNew_nil]
  exact nodup_foldl_insertNew names List.nodup_nil

/-- The names that a type enters under an abstract type: its own, if it is an object type that implements
it, and those of its members, if it is that union. -/
def TypeDefinition.enters (abstractType : Name) : TypeDefinition ω σ → List Name
  | .object t => if abstractType ∈ t.interfaces then [t.name] else []
  | .union t => if t.name = abstractType then t.members else []
  | .interface _ => []
  | .scalar _ => []
  | .enum _ => []

namespace SchemaDraft

/-! ## What is listed -/

/-- The names that an index lists under an abstract type. -/
def listed (index : OrderedMap (List Name)) (abstractType : Name) : List Name :=
  (index.get? abstractType).getD []

variable {abstractType : Name}

theorem listed_insert (index : OrderedMap (List Name)) (key : Name) (names : List Name) :
    listed (index.insert key names) abstractType =
      if key = abstractType then names else listed index abstractType := by
  rw [listed, OrderedMap.get?_insert]
  split <;> rfl

/-- An abstract type that is entered without names lists what it did before. -/
theorem listed_insert_self (index : OrderedMap (List Name)) (key : Name) :
    listed (index.insert key ((index.get? key).getD [])) abstractType = listed index abstractType := by
  rw [listed_insert]
  split
  next hkey => rw [hkey, listed]
  next => rfl

theorem listed_addPossible (index : OrderedMap (List Name)) (key object : Name) :
    listed (addPossible index key object) abstractType =
      if key = abstractType then insertNew (listed index abstractType) object
      else listed index abstractType := by
  rw [addPossible, listed_insert]
  split
  next hkey => rw [hkey, listed]
  next => rfl

/-- An object type is listed under the interfaces that it implements, however often it names them. -/
theorem listed_of_interfaces (object : Name) : ∀ (interfaces : List Name) (index : OrderedMap (List Name)),
    listed (interfaces.foldl (fun index i => addPossible index i object) index) abstractType =
      if abstractType ∈ interfaces then insertNew (listed index abstractType) object
      else listed index abstractType
  | [], _ => rfl
  | i :: rest, index => by
      rw [List.foldl_cons, listed_of_interfaces object rest, listed_addPossible]
      by_cases hi : i = abstractType
      · have hmem : object ∈ insertNew (listed index abstractType) object := mem_insertNew.mpr (.inr rfl)
        simp only [hi, if_true, List.mem_cons, true_or, insertNew_of_mem hmem, ite_self]
      · simp only [if_neg hi, List.mem_cons, Ne.symm hi, false_or]

theorem listed_of_members (union : Name) : ∀ (members : List Name) (index : OrderedMap (List Name)),
    listed (members.foldl (fun index m => addPossible index union m) index) abstractType =
      if union = abstractType then members.foldl insertNew (listed index abstractType)
      else listed index abstractType
  | [], _ => (ite_self _).symm
  | m :: rest, index => by
      rw [List.foldl_cons, listed_of_members union rest, listed_addPossible]
      split <;> rfl

/-- A type adds the names that it enters, if they are new. -/
theorem listed_enterPossible (index : OrderedMap (List Name)) : ∀ definition : TypeDefinition ω σ,
    listed (enterPossible index definition) abstractType =
      (definition.enters abstractType).foldl insertNew (listed index abstractType)
  | .scalar _ => rfl
  | .enum _ => rfl
  | .interface t => listed_insert_self index t.name
  | .object t => by
      rw [enterPossible, listed_of_interfaces, TypeDefinition.enters]
      split <;> rfl
  | .union t => by
      rw [enterPossible, listed_of_members, listed_insert_self, TypeDefinition.enters]
      split <;> rfl

theorem listed_foldl_enterPossible : ∀ (types : OrderedMap (TypeDefinition ω σ))
    (index : OrderedMap (List Name)),
    listed (types.foldl (fun index t => enterPossible index t.2) index) abstractType =
      (types.flatMap (fun t => t.2.enters abstractType)).foldl insertNew (listed index abstractType)
  | [], _ => rfl
  | e :: rest, index => by
      rw [List.foldl_cons, listed_foldl_enterPossible rest, listed_enterPossible, List.flatMap_cons,
        List.foldl_append]

/-- Under an abstract type stand the names that the types enter there, each once. -/
theorem listed_possibleIndex (types : OrderedMap (TypeDefinition ω σ)) :
    listed (possibleIndex types) abstractType =
      (types.flatMap (fun t => t.2.enters abstractType)).eraseDups := by
  rw [possibleIndex, listed_foldl_enterPossible, ← foldl_insertNew_nil]
  rfl

end SchemaDraft

/-! ## What a draft lists

Names are distinct in a draft that builds, so a union is entered once and an object type once under
an interface. -/

variable {draft : SchemaDraft ω σ} {schema : Schema ω σ} {name : Name}

theorem eraseDups_of_nodup : ∀ {names : List String}, names.Nodup → names.eraseDups = names
  | [], _ => rfl
  | name :: rest, h => by
      obtain ⟨hname, hrest⟩ := List.nodup_cons.mp h
      have hfilter : rest.filter (fun other => !other == name) = rest := by
        refine List.filter_eq_self.mpr ?_
        intro other hother
        have hne : other ≠ name := fun heq => hname (heq ▸ hother)
        simpa using hne
      rw [List.eraseDups_cons, hfilter, eraseDups_of_nodup hrest]

/-- Where names are distinct, a list that only one definition makes up is made up once. -/
theorem flatMap_of_nodup_names {f : TypeDefinition ω σ → List Name} {d : TypeDefinition ω σ} :
    ∀ {definitions : List (TypeDefinition ω σ)}, (definitions.map TypeDefinition.name).Nodup →
      d ∈ definitions → (∀ e ∈ definitions, e.name ≠ d.name → f e = []) → definitions.flatMap f = f d
  | e :: rest, hnodup, hmem, hother => by
      rw [List.map_cons, List.nodup_cons] at hnodup
      obtain ⟨hfirst, hnodup⟩ := hnodup
      obtain ⟨hother, hrest⟩ := List.forall_mem_cons.mp hother
      rw [List.flatMap_cons]
      rcases List.mem_cons.mp hmem with rfl | hmem
      · have hnothing : rest.flatMap f = [] := by
          refine List.flatMap_eq_nil_iff.mpr fun e he => hrest e he fun heq => ?_
          exact hfirst (heq ▸ List.mem_map_of_mem he)
        rw [hnothing, List.append_nil]
      · have hne : e.name ≠ d.name := fun heq => hfirst (heq ▸ List.mem_map_of_mem hmem)
        rw [hother hne, List.nil_append, flatMap_of_nodup_names hnodup hmem hrest]

/-- Whether a type is an object type that declares to implement an interface. -/
def TypeDefinition.implements (interface : Name) : TypeDefinition ω σ → Bool
  | .object t => decide (interface ∈ t.interfaces)
  | .interface _ => false
  | .union _ => false
  | .scalar _ => false
  | .enum _ => false

theorem flatMap_eq_map_filter {p : TypeDefinition ω σ → Bool} {f : TypeDefinition ω σ → List Name} :
    ∀ definitions : List (TypeDefinition ω σ),
      (∀ d ∈ definitions, f d = if p d = true then [d.name] else []) →
      definitions.flatMap f = (definitions.filter p).map TypeDefinition.name
  | [], _ => rfl
  | d :: rest, h => by
      obtain ⟨hfirst, hrest⟩ := List.forall_mem_cons.mp h
      rw [List.flatMap_cons, hfirst, flatMap_eq_map_filter rest hrest, List.filter_cons]
      split <;> rfl

namespace SchemaDraft

/-- No name is defined twice. -/
theorem nodup_names_of_build (h : draft.build = .ok schema) :
    (draft.types.map TypeDefinition.name).Nodup := by
  rw [List.Nodup, List.pairwise_map, List.pairwise_iff_getElem]
  intro i j hi hj hlt heq
  have htaken : draft.Taken j draft.types[j].name :=
    .inr ⟨draft.types[i], List.mem_take_iff_getElem.mpr ⟨i, by omega, rfl⟩, heq⟩
  exact not_flaw_of_build h _ _ (.name (List.getElem?_eq_getElem hj) (.repeated htaken))

/-- What an object type implements is an interface. -/
theorem exists_interface_of_build (h : draft.build = .ok schema) {t : ObjectType ω σ}
    (ht : .object t ∈ draft.types) (hname : name ∈ t.interfaces) :
    ∃ i, draft.type? name = some (.interface i) := by
  obtain ⟨j, hj⟩ := List.mem_iff_getElem?.mp hname
  have hflawless : ∀ v, ¬ draft.ImplementsFlaw t.name name v :=
    fun v hflaw => not_typeFlaw_of_build h ht _ _ (.interface hj (.interface hflaw))
  obtain ⟨_, htype, i, rfl⟩ := exists_of_not_referenceFlaw hflawless
  exact ⟨i, htype⟩

/-- Built-in scalars enter nothing, so the draft's own types decide what is listed. -/
theorem listed_of_build (h : draft.build = .ok schema) (name : Name) :
    listed schema.possible name = (draft.types.flatMap (TypeDefinition.enters name)).eraseDups := by
  have hyields := yields_of_build h
  have hscalars : (BuiltIn.scalars.map (.scalar : ScalarType → TypeDefinition ω σ)).flatMap
      (TypeDefinition.enters name) = [] := rfl
  rw [hyields.possible, listed_possibleIndex, hyields.types, List.flatMap_map, definitions,
    List.flatMap_append, hscalars, List.nil_append]

/-- Nothing is listed under a name that is neither an interface nor a union. -/
theorem listed_eq_nil (h : draft.build = .ok schema)
    (hinterface : ∀ t, draft.type? name ≠ some (.interface t))
    (hunion : ∀ t, draft.type? name ≠ some (.union t)) : listed schema.possible name = [] := by
  have hnothing : draft.types.flatMap (TypeDefinition.enters name) = [] := by
    refine List.flatMap_eq_nil_iff.mpr fun d hd => ?_
    cases d with
    | scalar _ | interface _ | enum _ => rfl
    | object t =>
        refine if_neg fun hname => ?_
        obtain ⟨i, hi⟩ := exists_interface_of_build h hd hname
        exact hinterface i hi
    | union t =>
        refine if_neg fun hname => ?_
        exact hunion t (hname ▸ type?_of_mem_types h hd)
  rw [listed_of_build h, hnothing]
  rfl

/-- The object types of a draft that declare to implement an interface, in the order of addition. -/
def implementers (draft : SchemaDraft ω σ) (interface : Name) : List Name :=
  (draft.types.filter (TypeDefinition.implements interface)).map TypeDefinition.name

theorem nodup_implementers (h : draft.build = .ok schema) (interface : Name) :
    (draft.implementers interface).Nodup :=
  (List.filter_sublist.map TypeDefinition.name).nodup (nodup_names_of_build h)

theorem listed_of_interface (h : draft.build = .ok schema) {t : InterfaceType ω σ}
    (ht : .interface t ∈ draft.types) : listed schema.possible t.name = draft.implementers t.name := by
  have hself : draft.type? t.name = some (.interface t) := type?_of_mem_types h ht
  have henters : draft.types.flatMap (TypeDefinition.enters t.name) = draft.implementers t.name := by
    refine flatMap_eq_map_filter _ fun d hd => ?_
    cases d with
    | scalar _ | interface _ | enum _ => rfl
    | object o => simp only [TypeDefinition.enters, TypeDefinition.implements, decide_eq_true_eq]; rfl
    | union u =>
        refine if_neg fun hname => ?_
        have hunion : draft.type? u.name = some (.union u) := type?_of_mem_types h hd
        rw [hname, hself] at hunion
        cases hunion
  rw [listed_of_build h, henters, eraseDups_of_nodup (nodup_implementers h t.name)]

theorem listed_of_union (h : draft.build = .ok schema) {t : UnionType ω}
    (ht : .union t ∈ draft.types) : listed schema.possible t.name = t.members.eraseDups := by
  have hself : draft.type? t.name = some (.union t) := type?_of_mem_types h ht
  have henters : draft.types.flatMap (TypeDefinition.enters t.name) = t.members := by
    refine (flatMap_of_nodup_names (nodup_names_of_build h) ht ?_).trans (if_pos rfl)
    intro e he hne
    cases e with
    | scalar _ | interface _ | enum _ => rfl
    | object o =>
        refine if_neg fun hname => ?_
        obtain ⟨i, hi⟩ := exists_interface_of_build h he hname
        cases hself.symm.trans hi
    | union u => exact if_neg hne
  rw [listed_of_build h, henters]

end SchemaDraft

/-! ## Abstract types of built schemas -/

namespace Schema

variable {draft : SchemaDraft ω σ} {schema : Schema ω σ} {abstractType : Name}

/-- An interface or a union, with its type resolver. -/
inductive Abstract (schema : Schema ω σ) (name : Name) : Option (ObjectValue ω → Option Name) → Prop
  | interface {t : InterfaceType ω σ} : schema.type? name = some (.interface t) →
      Abstract schema name t.resolveType?
  | union {t : UnionType ω} : schema.type? name = some (.union t) → Abstract schema name t.resolveType?

/-- An abstract type is no object type. -/
theorem Abstract.object?_eq_none {resolveType? : Option (ObjectValue ω → Option Name)}
    (h : schema.Abstract abstractType resolveType?) : schema.object? abstractType = none := by
  cases h with
  | interface htype => rw [object?, htype]
  | union htype => rw [object?, htype]

theorem possibleTypes_eq (h : schema.object? abstractType = none) :
    schema.possibleTypes abstractType = (schema.possible.get? abstractType).getD [] := by
  rw [possibleTypes, h]
  exact List.append_nil _

/-- A possible type is listed once. -/
theorem nodup_possibleTypes (hb : draft.build = .ok schema) (h : schema.object? abstractType = none) :
    (schema.possibleTypes abstractType).Nodup := by
  rw [possibleTypes_eq h, ← SchemaDraft.listed, SchemaDraft.listed_of_build hb]
  exact nodup_eraseDups _

/-- An object type is possible for itself only. -/
theorem possibleTypes_of_object (hb : draft.build = .ok schema) {t : ObjectType ω σ}
    (h : schema.object? name = some t) : schema.possibleTypes name = [name] := by
  have htype : draft.type? name = some (.object t) :=
    (SchemaDraft.type?_of_build hb name).symm.trans (type?_of_object? h)
  have hlisted : SchemaDraft.listed schema.possible name = [] := by
    refine SchemaDraft.listed_eq_nil hb ?_ ?_
    · intro i hi
      cases htype.symm.trans hi
    · intro u hu
      cases htype.symm.trans hu
  rw [possibleTypes, ← SchemaDraft.listed, hlisted, h]
  rfl

/-- A name that is undefined, or stands for a leaf type, has no possible types. -/
theorem possibleTypes_of_leaf (hb : draft.build = .ok schema)
    (h : ∀ d, schema.type? name = some d → d.isInput = true) : schema.possibleTypes name = [] := by
  have hobject : schema.object? name = none := by
    rw [object?]
    split
    · cases h _ ‹_›
    · rfl
  rw [SchemaDraft.type?_of_build hb] at h
  have hlisted : SchemaDraft.listed schema.possible name = [] := by
    refine SchemaDraft.listed_eq_nil hb ?_ ?_
    · intro i hi
      cases h _ hi
    · intro u hu
      cases h _ hu
  rw [possibleTypes_eq hobject, ← SchemaDraft.listed, hlisted]

/-- The one type that includes another without being abstract is that type itself. -/
theorem isSubtype_iff {abstractType maybeSubtype : Name} :
    schema.isSubtype abstractType maybeSubtype = true ↔
      abstractType = maybeSubtype ∨ maybeSubtype ∈ schema.possibleTypes abstractType := by
  rw [isSubtype, possibleTypes, Bool.or_eq_true, beq_iff_eq, List.contains_iff_mem, List.mem_append]
  constructor
  · rintro (heq | hlisted)
    · exact .inl heq
    · exact .inr (.inl hlisted)
  · rintro (heq | hlisted | hself)
    · exact .inl heq
    · exact .inr hlisted
    · split at hself
      · exact .inl (List.mem_singleton.mp hself).symm
      · cases hself

end Schema

/-! ## Possible types by the definitions of a draft -/

namespace SchemaDraft

/-- Which types are possible for a name, by what the draft defines for it. -/
structure DecidesPossible (draft : SchemaDraft ω σ) (schema : Schema ω σ) : Prop where
  interface : ∀ t, .interface t ∈ draft.types →
    schema.possibleTypes t.name = draft.implementers t.name
  /-- Members count where they are first given. -/
  union : ∀ t, .union t ∈ draft.types → schema.possibleTypes t.name = t.members.eraseDups
  object : ∀ t, .object t ∈ draft.types → schema.possibleTypes t.name = [t.name]
  scalar : ∀ t, .scalar t ∈ draft.definitions → schema.possibleTypes t.name = []
  enum : ∀ t, .enum t ∈ draft.types → schema.possibleTypes t.name = []
  undefined : ∀ name, (∀ d ∈ draft.definitions, d.name ≠ name) → schema.possibleTypes name = []
  distinct : ∀ name, (schema.possibleTypes name).Nodup
  subtype : ∀ abstractType maybeSubtype, schema.isSubtype abstractType maybeSubtype = true ↔
    abstractType = maybeSubtype ∨ maybeSubtype ∈ schema.possibleTypes abstractType

theorem type?_of_mem_definitions (h : draft.build = .ok schema) {d : TypeDefinition ω σ}
    (hd : d ∈ draft.definitions) : schema.type? d.name = some d := by
  rcases List.mem_append.mp hd with hd | hd
  · obtain ⟨t, ht, rfl⟩ := List.mem_map.mp hd
    exact type?_of_builtIn h ht
  · exact (type?_of_build h _).trans (type?_of_mem_types h hd)

/-- In a schema that a draft builds, wherever its definitions stand, the possible types are those that
they call for. -/
theorem decidesPossible (h : draft.build = .ok schema) : draft.DecidesPossible schema where
  interface := by
    intro t ht
    have htype : schema.type? t.name = some (.interface t) :=
      type?_of_mem_definitions h (List.mem_append_right _ ht)
    have hobject : schema.object? t.name = none := by rw [Schema.object?, htype]
    rw [Schema.possibleTypes_eq hobject]
    exact listed_of_interface h ht
  union := by
    intro t ht
    have htype : schema.type? t.name = some (.union t) :=
      type?_of_mem_definitions h (List.mem_append_right _ ht)
    have hobject : schema.object? t.name = none := by rw [Schema.object?, htype]
    rw [Schema.possibleTypes_eq hobject]
    exact listed_of_union h ht
  object := by
    intro t ht
    have htype : schema.type? t.name = some (.object t) :=
      type?_of_mem_definitions h (List.mem_append_right _ ht)
    exact Schema.possibleTypes_of_object h (by rw [Schema.object?, htype])
  scalar := by
    intro t ht
    refine Schema.possibleTypes_of_leaf h fun d hd => ?_
    cases (type?_of_mem_definitions h ht).symm.trans hd
    rfl
  enum := by
    intro t ht
    refine Schema.possibleTypes_of_leaf h fun d hd => ?_
    cases (type?_of_mem_definitions h (List.mem_append_right _ ht)).symm.trans hd
    rfl
  undefined := by
    intro name hname
    refine Schema.possibleTypes_of_leaf h fun d hd => ?_
    rw [type?_of_build h] at hd
    have hfound : d.name = name := by simpa using List.find?_some hd
    exact absurd hfound (hname d (List.mem_of_find?_eq_some hd))
  distinct := by
    intro name
    cases hobject : schema.object? name with
    | some t =>
        rw [Schema.possibleTypes_of_object h hobject]
        exact List.nodup_singleton name
    | none => exact Schema.nodup_possibleTypes h hobject
  subtype _ _ := Schema.isSubtype_iff

end SchemaDraft

/-! ## A zoo in any order -/

def animalInterface : InterfaceType Unit Unit where
  name := "Animal"

/-- Keepers and animals live in a zoo.  One member is given twice. -/
def residentUnion : UnionType Unit where
  name := "Resident"
  members := ["Keeper", "Lion", "Keeper", "Bear"]

/-- A zoo whose animals stand before and behind what they are. -/
def zooDraft : SchemaDraft Unit Unit where
  query := some "Query"
  types := [
    .object { name := "Lion", interfaces := ["Animal"] },
    .union residentUnion,
    .object { name := "Query", fields := [("zoo", { name := "zoo", type := .list (.named "Resident") })] },
    .interface animalInterface,
    .enum { name := "Season", values := ["SUMMER", "WINTER"] },
    .object { name := "Keeper" },
    .object { name := "Bear", interfaces := ["Animal"] }]

def zooSchema : Schema Unit Unit where
  queryType := "Query"
  mutationType := none
  types := zooDraft.registered
  possible := SchemaDraft.possibleIndex zooDraft.registered

/-- Lions and bears are animals in the order of their definitions, and live with keepers in the order of
the union. -/
theorem zooSchema_possibleTypes :
    zooDraft.build = .ok zooSchema ∧ zooSchema.possibleTypes "Animal" = ["Lion", "Bear"] ∧
      zooSchema.possibleTypes "Resident" = ["Keeper", "Lion", "Bear"] ∧
      zooSchema.possibleTypes "Keeper" = ["Keeper"] ∧ zooSchema.possibleTypes "Season" = [] ∧
      zooSchema.possibleTypes "Tiger" = [] ∧ zooSchema.isSubtype "Resident" "Bear" = true ∧
      zooSchema.isSubtype "Animal" "Keeper" = false := by
  have hb : zooDraft.build = .ok zooSchema := rfl
  have hdecides : zooDraft.DecidesPossible zooSchema := SchemaDraft.decidesPossible hb
  have hanimals : zooSchema.possibleTypes "Animal" = ["Lion", "Bear"] :=
    hdecides.interface animalInterface (by simp [zooDraft])
  have hresidents : zooSchema.possibleTypes "Resident" = ["Keeper", "Lion", "Bear"] :=
    hdecides.union residentUnion (by simp [zooDraft])
  refine ⟨hb, hanimals, hresidents, ?_, ?_, ?_, ?_, ?_⟩
  · exact hdecides.object { name := "Keeper" } (by simp [zooDraft])
  · exact hdecides.enum { name := "Season", values := ["SUMMER", "WINTER"] } (by simp [zooDraft])
  · exact hdecides.undefined "Tiger" (by decide)
  · exact (hdecides.subtype _ _).mpr (.inr (by simp [hresidents]))
  · rw [Bool.eq_false_iff, ne_eq, hdecides.subtype, hanimals]
    decide

end GraphQLEngine
