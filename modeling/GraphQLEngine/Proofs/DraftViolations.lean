/-
What is wrong with a draft, and what building it reports.

`SchemaDraft.Flaw` lists the flaws that a draft can have, each at a site of its
own: a position among the draft's definitions, fields, arguments, interfaces
or members.  It speaks of the draft only; what a name refers to is said by
`SchemaDraft.type?`, and which definitions are ignored by
`SchemaDraft.Taken`.  Building reports each flaw once and nothing else
(`violations_report`), and gives a schema exactly if there is none
(`build_reports`).

In which order the flaws are reported is not said here, nor what the possible
types of a schema are.
-/
import GraphQLEngine.Proofs.NameSyntax
import GraphQLEngine.Proofs.Registration
import Mathlib.Data.List.Nodup

namespace GraphQLEngine

variable {ω σ : Type}

/-! ## Reports -/

/-- A list has one entry for each case of `P`, and no other entries.  Cases stand at different
sites. -/
def Reports {S V : Type} (P : S → V → Prop) (entries : List V) : Prop :=
  ∃ pairs : List (S × V), (pairs.map Prod.fst).Nodup ∧ (∀ s v, (s, v) ∈ pairs ↔ P s v) ∧
    entries = pairs.map Prod.snd

namespace Reports

variable {S T V α : Type} {P Q : S → V → Prop} {vs ws : List V}

theorem congr (h : Reports P vs) (hiff : ∀ s v, Q s v ↔ P s v) : Reports Q vs := by
  obtain ⟨pairs, hnodup, hmem, hvs⟩ := h
  exact ⟨pairs, hnodup, fun s v => (hmem s v).trans (hiff s v).symm, hvs⟩

theorem nothing (h : ∀ s v, ¬ P s v) : Reports P [] :=
  ⟨[], .nil, fun s v => ⟨fun hmem => absurd hmem List.not_mem_nil, fun hp => absurd hp (h s v)⟩, rfl⟩

theorem single {s : S} {v : V} (h : ∀ t w, P t w ↔ t = s ∧ w = v) : Reports P [v] :=
  ⟨[(s, v)], List.nodup_singleton s, fun t w => by simp [h], rfl⟩

/-- An entry if a condition holds. -/
theorem ifSo (s : S) (v : V) (c : Prop) [Decidable c] :
    Reports (fun t w => t = s ∧ c ∧ w = v) (if c then [v] else []) := by
  split
  · rename_i hc
    exact single (s := s) fun t w => by simp [hc]
  · rename_i hc
    exact nothing fun _ _ h => hc h.2.1

theorem ifNot (s : S) (v : V) (c : Prop) [Decidable c] :
    Reports (fun t w => t = s ∧ ¬ c ∧ w = v) (if c then [] else [v]) := by
  rw [← ite_not]
  exact ifSo s v (¬ c)

theorem eq_nil_iff (h : Reports P vs) : vs = [] ↔ ∀ s v, ¬ P s v := by
  obtain ⟨pairs, _, hmem, rfl⟩ := h
  rw [List.map_eq_nil_iff, List.eq_nil_iff_forall_not_mem, Prod.forall]
  exact forall₂_congr fun s v => not_congr (hmem s v)

theorem append (h : Reports P vs) (g : Reports Q ws) (hdisjoint : ∀ s v w, P s v → ¬ Q s w) :
    Reports (fun s v => P s v ∨ Q s v) (vs ++ ws) := by
  obtain ⟨pairs, hnodup, hmem, rfl⟩ := h
  obtain ⟨pairs', hnodup', hmem', rfl⟩ := g
  refine ⟨pairs ++ pairs', ?_, fun s v => by rw [List.mem_append, hmem, hmem'],
    List.map_append.symm⟩
  rw [List.map_append]
  refine List.nodup_append.mpr ⟨hnodup, hnodup', ?_⟩
  intro s hs t ht heq
  obtain ⟨⟨_, v⟩, hv, rfl⟩ := List.mem_map.mp hs
  obtain ⟨⟨_, w⟩, hw, rfl⟩ := List.mem_map.mp ht
  cases heq
  exact hdisjoint _ v w ((hmem _ _).mp hv) ((hmem' _ _).mp hw)

/-- The same cases at sites within others. -/
theorem relabel {f : S → T} (hf : Function.Injective f) (h : Reports P vs) :
    Reports (fun t v => ∃ s, f s = t ∧ P s v) vs := by
  obtain ⟨pairs, hnodup, hmem, rfl⟩ := h
  refine ⟨pairs.map fun c => (f c.1, c.2), ?_, ?_, by simp [Function.comp_def]⟩
  · have hmap : (pairs.map fun c => (f c.1, c.2)).map Prod.fst = (pairs.map Prod.fst).map f := by
      simp [Function.comp_def]
    rw [hmap]
    exact hnodup.map hf
  · intro t v
    constructor
    · intro hc
      obtain ⟨⟨s, w⟩, hw, heq⟩ := List.mem_map.mp hc
      cases heq
      exact ⟨s, rfl, (hmem s w).mp hw⟩
    · rintro ⟨s, rfl, hp⟩
      exact List.mem_map.mpr ⟨(s, v), (hmem s v).mpr hp, rfl⟩

/-- The cases of the first element of a list before those of the rest: sites are positions. -/
theorem cons {Q : Nat × S → V → Prop} {R : Nat × S → V → Prop} (h : Reports P vs)
    (g : Reports Q ws) (hzero : ∀ s v, R (0, s) v ↔ P s v)
    (hsucc : ∀ i s v, R (i + 1, s) v ↔ Q (i, s) v) : Reports R (vs ++ ws) := by
  have hfirst := h.relabel (f := fun s => (0, s)) fun s t heq => (Prod.mk.inj heq).2
  have hrest := g.relabel (f := fun p => (p.1 + 1, p.2)) fun p q heq => by
    obtain ⟨h₁, h₂⟩ := Prod.mk.inj heq
    exact Prod.ext (Nat.succ.inj h₁) h₂
  refine (hfirst.append hrest ?_).congr ?_
  · rintro _ v w ⟨s, rfl, _⟩ ⟨p, heq, _⟩
    cases heq
  · rintro ⟨_ | i, s⟩ v
    · simp [hzero]
    · simp [hsucc]

theorem flatMap {P : α → S → V → Prop} {f : α → List V} (h : ∀ a, Reports (P a) (f a)) :
    ∀ l : List α, Reports (fun (p : Nat × S) v => ∃ a, l[p.1]? = some a ∧ P a p.2 v) (l.flatMap f)
  | [] => nothing (by simp)
  | a :: rest => by
      rw [List.flatMap_cons]
      exact (h a).cons (flatMap h rest) (by simp) (by simp)

theorem filter_map {f : α → V} (c : α → Bool) (l : List α) :
    Reports (fun (i : Nat) v => ∃ a, l[i]? = some a ∧ c a = false ∧ v = f a)
      ((l.filter (fun a => !c a)).map f) := by
  have hflatMap : (l.filter (fun a => !c a)).map f = l.flatMap fun a => if c a then [] else [f a] := by
    induction l with
    | nil => rfl
    | cons a rest ih =>
        rw [List.filter_cons, List.flatMap_cons, ← ih]
        cases c a <;> rfl
  rw [hflatMap]
  have h := flatMap (fun a => ifNot () (f a) (c a = true)) l
  refine (h.relabel (f := Prod.fst) fun p q heq => Prod.ext heq rfl).congr ?_
  simp

end Reports

/-! ## Flaws -/

namespace TypeDefinition

def IsScalar (d : TypeDefinition ω σ) : Prop :=
  ∃ t, d = .scalar t

def IsObject (d : TypeDefinition ω σ) : Prop :=
  ∃ t, d = .object t

def IsInterface (d : TypeDefinition ω σ) : Prop :=
  ∃ t, d = .interface t

def IsEnum (d : TypeDefinition ω σ) : Prop :=
  ∃ t, d = .enum t

end TypeDefinition

namespace SchemaDraft

section Flaws

variable (draft : SchemaDraft ω σ)

/-- How a name of a definition is flawed. -/
inductive NameSite where
  | malformed
  | repeated

/-- What is wrong with the name of a definition, given whether it is taken. -/
inductive NameFlaw (taken : Prop) (name : Name) : NameSite → SchemaViolation → Prop
  | malformed : ¬ name.WellFormed → NameFlaw taken name .malformed (.invalidName name)
  | repeated : taken → NameFlaw taken name .repeated (.duplicateTypeName name)

/-- What is wrong with a name that should refer to a definition of some kind: it refers to nothing, or
to a definition of another kind. -/
inductive ReferenceFlaw (fits : TypeDefinition ω σ → Prop) (name : Name)
    (missing : SchemaViolation) (unfit : TypeDefinition ω σ → SchemaViolation) :
    SchemaViolation → Prop
  | missing : draft.type? name = none → ReferenceFlaw fits name missing unfit missing
  | unfit {d : TypeDefinition ω σ} : draft.type? name = some d → ¬ fits d →
      ReferenceFlaw fits name missing unfit (unfit d)

/-- What is wrong with a root type, which should be an object type. -/
def RootFlaw (kind : OperationKind) (name : Name) : SchemaViolation → Prop :=
  draft.ReferenceFlaw TypeDefinition.IsObject name (.undefinedRootType kind name)
    fun d => .rootTypeNotObject kind name d.describe

/-- What is wrong with a member of a union, which should be an object type. -/
def MemberFlaw (unionName member : Name) : SchemaViolation → Prop :=
  draft.ReferenceFlaw TypeDefinition.IsObject member (.undefinedType member (.members unionName))
    fun d => .unionMemberNotObject unionName member d.describe

/-- What is wrong with an argument, whose type should be a scalar or an enum. -/
def ArgumentFlaw (typeName fieldName : Name) (argument : Name × ArgumentDefinition) :
    SchemaViolation → Prop :=
  draft.ReferenceFlaw (fun d => d.IsScalar ∨ d.IsEnum) argument.2.type.innerName
    (.undefinedType argument.2.type.innerName (.argument typeName fieldName argument.1))
    fun d => .outputTypeAsArgument (.argument typeName fieldName argument.1) argument.2.type d.describe

/-- What is wrong with a name in the list of interfaces of an object type, which should be an
interface. -/
def ImplementsFlaw (object name : Name) : SchemaViolation → Prop :=
  draft.ReferenceFlaw TypeDefinition.IsInterface name (.undefinedType name (.interfaces object))
    fun d => .notAnInterface object name d.describe

/-- Where a field is flawed: arguments are given by their positions. -/
inductive FieldSite where
  | name
  | type
  | argument (k : Nat)

/-- What is wrong with a field. -/
inductive FieldFlaw (typeName : Name) (field : Name × FieldDefinition ω σ) :
    FieldSite → SchemaViolation → Prop
  | name : ¬ field.1.WellFormed → FieldFlaw typeName field .name (.invalidName field.1)
  | type : draft.type? field.2.type.innerName = none →
      FieldFlaw typeName field .type
        (.undefinedType field.2.type.innerName (.field typeName field.1))
  | argument {k : Nat} {argument : Name × ArgumentDefinition} {v : SchemaViolation} :
      field.2.arguments[k]? = some argument → draft.ArgumentFlaw typeName field.1 argument v →
      FieldFlaw typeName field (.argument k) v

/-- Where the implementation of an interface is flawed: its fields are given by their positions. -/
inductive InterfaceSite where
  | interface
  | field (k : Nat)

/-- What is wrong with an interface that an object type implements.  If it is one, the object type
should have its fields. -/
inductive InterfaceFlaw (object : ObjectType ω σ) (name : Name) :
    InterfaceSite → SchemaViolation → Prop
  | interface {v : SchemaViolation} : draft.ImplementsFlaw object.name name v →
      InterfaceFlaw object name .interface v
  | field {t : InterfaceType ω σ} {k : Nat} {f : Name} : draft.type? name = some (.interface t) →
      t.fields.keys[k]? = some f → f ∉ object.fields.keys →
      InterfaceFlaw object name (.field k) (.missingInterfaceField object.name name f)

/-- Where a type is flawed: fields, interfaces and members are given by their positions. -/
inductive TypeSite where
  | field (j : Nat) (site : FieldSite)
  | interface (j : Nat) (site : InterfaceSite)
  | member (j : Nat)

/-- What is wrong with a type. -/
inductive TypeFlaw : TypeDefinition ω σ → TypeSite → SchemaViolation → Prop
  | objectField {t : ObjectType ω σ} {j : Nat} {field : Name × FieldDefinition ω σ}
      {site : FieldSite} {v : SchemaViolation} : t.fields[j]? = some field →
      draft.FieldFlaw t.name field site v → TypeFlaw (.object t) (.field j site) v
  | interfaceField {t : InterfaceType ω σ} {j : Nat} {field : Name × FieldDefinition ω σ}
      {site : FieldSite} {v : SchemaViolation} : t.fields[j]? = some field →
      draft.FieldFlaw t.name field site v → TypeFlaw (.interface t) (.field j site) v
  | interface {t : ObjectType ω σ} {j : Nat} {name : Name} {site : InterfaceSite}
      {v : SchemaViolation} : t.interfaces[j]? = some name → draft.InterfaceFlaw t name site v →
      TypeFlaw (.object t) (.interface j site) v
  | member {t : UnionType ω} {j : Nat} {name : Name} {v : SchemaViolation} :
      t.members[j]? = some name → draft.MemberFlaw t.name name v → TypeFlaw (.union t) (.member j) v

/-- Where a draft is flawed: its own definitions are given by their positions. -/
inductive Site where
  | name (i : Nat) (site : NameSite)
  | query
  | mutation
  | type (i : Nat) (site : TypeSite)

/-- What is wrong with a draft.  Of definitions that are ignored, only the names count. -/
inductive Flaw : Site → SchemaViolation → Prop
  | name {i : Nat} {d : TypeDefinition ω σ} {site : NameSite} {v : SchemaViolation} :
      draft.types[i]? = some d → NameFlaw (draft.Taken i d.name) d.name site v →
      Flaw (.name i site) v
  | noQuery : draft.query = none → Flaw .query .missingQueryType
  | query {name : Name} {v : SchemaViolation} : draft.query = some name →
      draft.RootFlaw .query name v → Flaw .query v
  | mutation {name : Name} {v : SchemaViolation} : draft.mutation = some name →
      draft.RootFlaw .mutation name v → Flaw .mutation v
  | type {i : Nat} {d : TypeDefinition ω σ} {site : TypeSite} {v : SchemaViolation} :
      draft.types[i]? = some d → ¬ draft.Taken i d.name → draft.TypeFlaw d site v →
      Flaw (.type i site) v

end Flaws

/-! ## What each check reports -/

variable (draft : SchemaDraft ω σ)

variable {draft} in
/-- A reference that is checked reports what is wrong with it. -/
theorem referenceFlaw_report {fits : TypeDefinition ω σ → Prop} {name : Name}
    {missing : SchemaViolation} {unfit : TypeDefinition ω σ → SchemaViolation}
    {violations : List SchemaViolation}
    (hmissing : draft.type? name = none → violations = [missing])
    (hfits : ∀ d, draft.type? name = some d → fits d → violations = [])
    (hunfit : ∀ d, draft.type? name = some d → ¬ fits d → violations = [unfit d]) :
    Reports (fun (_ : Unit) v => draft.ReferenceFlaw fits name missing unfit v) violations := by
  match ht : draft.type? name with
  | none =>
      rw [hmissing ht]
      refine .single (s := ()) fun _ v => ⟨fun h => ⟨rfl, ?_⟩, fun h => h.2 ▸ .missing ht⟩
      cases h with
      | missing => rfl
      | unfit hd => cases ht.symm.trans hd
  | some d =>
      by_cases hd : fits d
      · rw [hfits d ht hd]
        refine .nothing fun _ v h => ?_
        cases h with
        | missing hnone => cases ht.symm.trans hnone
        | unfit hsome hnot =>
            cases ht.symm.trans hsome
            exact hnot hd
      · rw [hunfit d ht hd]
        refine .single (s := ()) fun _ v => ⟨fun h => ⟨rfl, ?_⟩, fun h => h.2 ▸ .unfit ht hd⟩
        cases h with
        | missing hnone => cases ht.symm.trans hnone
        | unfit hsome =>
            cases ht.symm.trans hsome
            rfl

/-- A reference to an object type. -/
theorem objectReference_report (name : Name) (missing : SchemaViolation)
    (unfit : TypeDefinition ω σ → SchemaViolation) :
    Reports (fun (_ : Unit) v =>
        draft.ReferenceFlaw TypeDefinition.IsObject name missing unfit v)
      (match draft.type? name with
        | some (.object _) => []
        | some other => [unfit other]
        | none => [missing]) := by
  refine referenceFlaw_report (fun h => by rw [h]) ?_ ?_
  · rintro _ h ⟨t, rfl⟩
    rw [h]
  · intro d h hnot
    rw [h]
    cases d with
    | object t => exact absurd ⟨t, rfl⟩ hnot
    | scalar _ | interface _ | union _ | enum _ => rfl

theorem rootViolations_report (kind : OperationKind) (name : Name) :
    Reports (fun (_ : Unit) v => draft.RootFlaw kind name v)
      (rootViolations draft.registered kind name) := by
  rw [rootViolations, registered_get?]
  exact draft.objectReference_report name _ fun d => .rootTypeNotObject kind name d.describe

theorem memberViolations_report (unionName member : Name) :
    Reports (fun (_ : Unit) v => draft.MemberFlaw unionName member v)
      (memberViolations draft.registered unionName member) := by
  rw [memberViolations, registered_get?]
  exact draft.objectReference_report member _ fun d =>
    .unionMemberNotObject unionName member d.describe

theorem argumentViolations_report (typeName fieldName : Name)
    (argument : Name × ArgumentDefinition) :
    Reports (fun (_ : Unit) v => draft.ArgumentFlaw typeName fieldName argument v)
      (argumentViolations draft.registered typeName fieldName argument) := by
  rw [argumentViolations, registered_get?]
  refine referenceFlaw_report (fun h => by rw [h]) ?_ ?_
  · rintro _ h (⟨t, rfl⟩ | ⟨t, rfl⟩)
    · rw [h]; rfl
    · rw [h]; rfl
  · intro d h hnot
    rw [h]
    cases d with
    | scalar t => exact absurd (.inl ⟨t, rfl⟩) hnot
    | enum t => exact absurd (.inr ⟨t, rfl⟩) hnot
    | object _ | interface _ | union _ => rfl

theorem registered_contains {name : Name} :
    draft.registered.contains name = true ↔ draft.type? name ≠ none := by
  rw [OrderedMap.contains_eq_isSome, registered_get?, Option.isSome_iff_ne_none]

theorem fieldViolations_report (typeName : Name) (field : Name × FieldDefinition ω σ) :
    Reports (draft.FieldFlaw typeName field)
      (fieldViolations draft.registered typeName field) := by
  have hname := Reports.ifNot FieldSite.name (SchemaViolation.invalidName field.1)
    (Name.isValid field.1 = true)
  have htype := Reports.ifNot FieldSite.type
    (SchemaViolation.undefinedType field.2.type.innerName (.field typeName field.1))
    (draft.registered.contains field.2.type.innerName = true)
  have harguments := (Reports.flatMap (draft.argumentViolations_report typeName field.1)
    field.2.arguments).relabel (f := fun p => FieldSite.argument p.1) fun p q heq =>
      Prod.ext (FieldSite.argument.inj heq) rfl
  refine ((hname.append htype ?_).append harguments ?_).congr ?_
  · rintro _ _ _ ⟨rfl, _⟩ ⟨heq, _⟩
    cases heq
  · rintro _ _ _ (⟨rfl, _⟩ | ⟨rfl, _⟩) ⟨_, heq, _⟩
    · cases heq
    · cases heq
  · intro s v
    rw [Name.isValid_iff, registered_contains, not_not]
    constructor
    · intro h
      cases h with
      | name hname => exact .inl (.inl ⟨rfl, hname, rfl⟩)
      | type htype => exact .inl (.inr ⟨rfl, htype, rfl⟩)
      | argument hk hflaw => exact .inr ⟨(_, ()), rfl, _, hk, hflaw⟩
    · rintro ((⟨rfl, hname, rfl⟩ | ⟨rfl, htype, rfl⟩) | ⟨_, rfl, _, hk, hflaw⟩)
      · exact .name hname
      · exact .type htype
      · exact .argument hk hflaw

variable {draft} in
theorem interfaceViolations_of_not_interface (object : ObjectType ω σ) {name : Name}
    (hname : ∀ t, draft.type? name ≠ some (.interface t)) :
    Reports (fun (_ : Unit) v => draft.ImplementsFlaw object.name name v)
      (interfaceViolations draft.registered object name) := by
  rw [interfaceViolations, registered_get?]
  refine referenceFlaw_report (fun h => by rw [h]) ?_ ?_
  · rintro _ h ⟨t, rfl⟩
    exact absurd h (hname t)
  · intro d h hnot
    rw [h]
    cases d with
    | interface t => exact absurd h (hname t)
    | scalar _ | object _ | union _ | enum _ => rfl

theorem interfaceViolations_report (object : ObjectType ω σ) (name : Name) :
    Reports (draft.InterfaceFlaw object name)
      (interfaceViolations draft.registered object name) := by
  by_cases hi : ∃ t, draft.type? name = some (.interface t)
  · obtain ⟨t, ht⟩ := hi
    rw [interfaceViolations, registered_get?, ht]
    refine ((Reports.filter_map object.fields.contains t.fields.keys).relabel
      (f := InterfaceSite.field) fun _ _ heq => InterfaceSite.field.inj heq).congr ?_
    intro s v
    constructor
    · intro h
      cases h with
      | interface hflaw =>
          cases hflaw with
          | missing hnone => cases ht.symm.trans hnone
          | unfit hsome hnot =>
              cases ht.symm.trans hsome
              exact absurd ⟨t, rfl⟩ hnot
      | field ht' hk hf =>
          cases ht.symm.trans ht'
          rw [← OrderedMap.contains_iff_mem_keys, Bool.not_eq_true] at hf
          exact ⟨_, rfl, _, hk, hf, rfl⟩
    · rintro ⟨k, rfl, f, hk, hf, rfl⟩
      rw [← Bool.not_eq_true, OrderedMap.contains_iff_mem_keys] at hf
      exact .field ht hk hf
  · have hname : ∀ t, draft.type? name ≠ some (.interface t) := fun t ht => hi ⟨t, ht⟩
    refine ((interfaceViolations_of_not_interface object hname).relabel
      (f := fun _ => InterfaceSite.interface) (Function.injective_of_subsingleton _)).congr ?_
    intro s v
    constructor
    · intro h
      cases h with
      | interface hflaw => exact ⟨(), rfl, hflaw⟩
      | field ht => exact absurd ht (hname _)
    · rintro ⟨_, rfl, hflaw⟩
      exact .interface hflaw

theorem fields_report (typeName : Name) (fields : OrderedMap (FieldDefinition ω σ)) :
    Reports (fun site v => ∃ p : Nat × FieldSite, TypeSite.field p.1 p.2 = site ∧
        ∃ field, fields[p.1]? = some field ∧ draft.FieldFlaw typeName field p.2 v)
      (fields.flatMap (fieldViolations draft.registered typeName)) :=
  (Reports.flatMap (draft.fieldViolations_report typeName) fields).relabel fun _ _ heq =>
    Prod.ext (TypeSite.field.inj heq).1 (TypeSite.field.inj heq).2

theorem typeViolations_report (d : TypeDefinition ω σ) :
    Reports (draft.TypeFlaw d) (typeViolations draft.registered d) := by
  cases d with
  | object t =>
      have hinterfaces := (Reports.flatMap (draft.interfaceViolations_report t) t.interfaces).relabel
        (f := fun p => TypeSite.interface p.1 p.2) fun p q heq =>
          Prod.ext (TypeSite.interface.inj heq).1 (TypeSite.interface.inj heq).2
      refine ((draft.fields_report t.name t.fields).append hinterfaces ?_).congr ?_
      · rintro _ _ _ ⟨p, rfl, _⟩ ⟨q, heq, _⟩
        cases heq
      · intro site v
        constructor
        · intro h
          cases h with
          | objectField hj hflaw => exact .inl ⟨(_, _), rfl, _, hj, hflaw⟩
          | interface hj hflaw => exact .inr ⟨(_, _), rfl, _, hj, hflaw⟩
        · rintro (⟨p, rfl, _, hj, hflaw⟩ | ⟨p, rfl, _, hj, hflaw⟩)
          · exact .objectField hj hflaw
          · exact .interface hj hflaw
  | interface t =>
      refine (draft.fields_report t.name t.fields).congr fun site v => ⟨fun h => ?_, ?_⟩
      · cases h with
        | interfaceField hj hflaw => exact ⟨(_, _), rfl, _, hj, hflaw⟩
      · rintro ⟨p, rfl, _, hj, hflaw⟩
        exact .interfaceField hj hflaw
  | union t =>
      refine ((Reports.flatMap (draft.memberViolations_report t.name) t.members).relabel
        (f := fun p => TypeSite.member p.1) fun p q heq =>
          Prod.ext (TypeSite.member.inj heq) rfl).congr fun site v => ⟨fun h => ?_, ?_⟩
      · cases h with
        | member hj hflaw => exact ⟨(_, ()), rfl, _, hj, hflaw⟩
      · rintro ⟨p, rfl, _, hj, hflaw⟩
        exact .member hj hflaw
  | scalar _ | enum _ => exact .nothing fun _ _ h => by cases h

/-! ## What building reports -/

theorem nameViolations_cons {types : OrderedMap (TypeDefinition ω σ)} {d : TypeDefinition ω σ} :
    Reports (NameFlaw (d.name ∈ types.keys) d.name)
      ((if Name.isValid d.name then [] else [.invalidName d.name])
        ++ (if types.contains d.name then [.duplicateTypeName d.name] else [])) := by
  have hmalformed := Reports.ifNot NameSite.malformed (SchemaViolation.invalidName d.name)
    (Name.isValid d.name = true)
  have hrepeated := Reports.ifSo NameSite.repeated (SchemaViolation.duplicateTypeName d.name)
    (types.contains d.name = true)
  refine (hmalformed.append hrepeated ?_).congr ?_
  · rintro _ _ _ ⟨rfl, _⟩ ⟨heq, _⟩
    cases heq
  · intro site v
    rw [Name.isValid_iff, OrderedMap.contains_iff_mem_keys]
    constructor
    · intro h
      cases h with
      | malformed hname => exact .inl ⟨rfl, hname, rfl⟩
      | repeated htaken => exact .inr ⟨rfl, htaken, rfl⟩
    · rintro (⟨rfl, hname, rfl⟩ | ⟨rfl, htaken, rfl⟩)
      · exact .malformed hname
      · exact .repeated htaken

theorem nameViolations_report :
    ∀ (definitions : List (TypeDefinition ω σ)) (types : OrderedMap (TypeDefinition ω σ)),
      Reports (fun (p : Nat × NameSite) v => ∃ d, definitions[p.1]? = some d ∧
          NameFlaw (TakenBy types.keys definitions p.1 d.name) d.name p.2 v)
        (nameViolations types definitions)
  | [], _ => .nothing (by simp)
  | d :: rest, types => by
      rw [nameViolations]
      refine nameViolations_cons.cons (nameViolations_report rest (register types d)) ?_ ?_
      · simp [takenBy_zero]
      · simp [takenBy_succ]

/-- Checks of all registered types are checks of the definitions that are not ignored. -/
theorem registered_report {S : Type} {P : TypeDefinition ω σ → S → SchemaViolation → Prop}
    {check : TypeDefinition ω σ → List SchemaViolation} (h : ∀ d, Reports (P d) (check d)) :
    ∀ (definitions : List (TypeDefinition ω σ)) (types : OrderedMap (TypeDefinition ω σ)),
      ∃ violations, (definitions.foldl register types).flatMap (fun t => check t.2) =
          types.flatMap (fun t => check t.2) ++ violations ∧
        Reports (fun (p : Nat × S) v => ∃ d, definitions[p.1]? = some d ∧
          ¬ TakenBy types.keys definitions p.1 d.name ∧ P d p.2 v) violations
  | [], types => ⟨[], by simp, .nothing (by simp)⟩
  | d :: rest, types => by
      -- The first definition is ignored, or checked after the types registered before it.
      obtain ⟨violations, heq, hrest⟩ := registered_report h rest (register types d)
      by_cases htaken : types.contains d.name = true
      · have hkey := OrderedMap.contains_iff_mem_keys.mp htaken
        have hregister : register types d = types := by rw [register, if_pos htaken]
        refine ⟨[] ++ violations, ?_, (Reports.nothing (P := fun _ _ => False) (by simp)).cons hrest ?_ ?_⟩
        · rw [List.foldl_cons, heq, hregister, List.nil_append]
        · simp [takenBy_zero, hkey]
        · simp [takenBy_succ]
      · have hkey : d.name ∉ types.keys := fun hmem => htaken (OrderedMap.contains_iff_mem_keys.mpr hmem)
        have hregister : register types d = types ++ [(d.name, d)] := by rw [register, if_neg htaken]
        refine ⟨check d ++ violations, ?_, (h d).cons hrest ?_ ?_⟩
        · rw [List.foldl_cons, heq, hregister, List.flatMap_append, List.flatMap_singleton,
            List.append_assoc]
        · simp [takenBy_zero, hkey]
        · simp [takenBy_succ]

theorem nameViolations_append (ds : List (TypeDefinition ω σ)) :
    ∀ (cs : List (TypeDefinition ω σ)) (types : OrderedMap (TypeDefinition ω σ)),
      nameViolations types (cs ++ ds) =
        nameViolations types cs ++ nameViolations (cs.foldl register types) ds
  | [], _ => rfl
  | c :: rest, types => by
      simp only [List.cons_append, nameViolations, nameViolations_append ds rest, List.foldl_cons,
        List.append_assoc]

theorem nameViolations_builtIn :
    nameViolations ([] : OrderedMap (TypeDefinition ω σ)) (BuiltIn.scalars.map .scalar) = [] := by
  -- The names differ from each other, which leaves whether each is valid.
  simp only [BuiltIn.scalars, BuiltIn.scalar, List.map_cons, List.map_nil, nameViolations,
    TypeDefinition.name, OrderedMap.contains, Bool.false_eq_true, if_false, List.append_nil,
    register, List.nil_append, String.reduceEq, List.cons_append, List.append_eq_nil_iff]
  exact ⟨if_pos (by decide), if_pos (by decide), if_pos (by decide), if_pos (by decide),
    if_pos (by decide)⟩

theorem names_report :
    Reports (fun (p : Nat × NameSite) v => ∃ d, draft.types[p.1]? = some d ∧
        NameFlaw (draft.Taken p.1 d.name) d.name p.2 v)
      (nameViolations [] draft.definitions) := by
  rw [definitions, nameViolations_append, nameViolations_builtIn, List.nil_append]
  have hreport := nameViolations_report draft.types ((BuiltIn.scalars.map .scalar).foldl register [])
  rw [builtIn_keys] at hreport
  exact hreport

theorem types_report :
    Reports (fun (p : Nat × TypeSite) v => ∃ d, draft.types[p.1]? = some d ∧
        ¬ draft.Taken p.1 d.name ∧ draft.TypeFlaw d p.2 v)
      (draft.registered.flatMap fun t => typeViolations draft.registered t.2) := by
  obtain ⟨violations, heq, hreport⟩ := registered_report draft.typeViolations_report draft.types
    ((BuiltIn.scalars.map .scalar).foldl register [])
  have hbuiltIn : ((BuiltIn.scalars.map TypeDefinition.scalar).foldl register
      ([] : OrderedMap (TypeDefinition ω σ))).flatMap
        (fun t => typeViolations draft.registered t.2) = [] := rfl
  have htypes : draft.registered.flatMap (fun t => typeViolations draft.registered t.2) =
      violations := by
    rw [hbuiltIn, List.nil_append, ← List.foldl_append] at heq
    exact heq
  rw [builtIn_keys] at hreport
  rw [htypes]
  exact hreport

theorem query_report :
    Reports (fun (_ : Unit) v => (draft.query = none ∧ v = .missingQueryType) ∨
        ∃ name, draft.query = some name ∧ draft.RootFlaw .query name v)
      (match draft.query with
        | some name => rootViolations draft.registered .query name
        | none => [.missingQueryType]) := by
  match draft.query with
  | none => exact .single (s := ()) (by simp)
  | some name => exact (draft.rootViolations_report .query name).congr (by simp)

theorem mutation_report :
    Reports (fun (_ : Unit) v => ∃ name, draft.mutation = some name ∧
        draft.RootFlaw .mutation name v)
      (match draft.mutation with
        | some name => rootViolations draft.registered .mutation name
        | none => []) := by
  match draft.mutation with
  | none => exact .nothing (by simp)
  | some name => exact (draft.rootViolations_report .mutation name).congr (by simp)

/-- The violations of a draft are its flaws, each of them once. -/
theorem violations_report : Reports draft.Flaw draft.violations := by
  have hnames := draft.names_report.relabel (f := fun p => Site.name p.1 p.2) fun p q heq =>
    Prod.ext (Site.name.inj heq).1 (Site.name.inj heq).2
  have hquery := draft.query_report.relabel (f := fun _ => Site.query)
    (Function.injective_of_subsingleton _)
  have hmutation := draft.mutation_report.relabel (f := fun _ => Site.mutation)
    (Function.injective_of_subsingleton _)
  have htypes := draft.types_report.relabel (f := fun p => Site.type p.1 p.2) fun p q heq =>
    Prod.ext (Site.type.inj heq).1 (Site.type.inj heq).2
  refine (((hnames.append hquery ?_).append hmutation ?_).append htypes ?_).congr ?_
  · rintro _ _ _ ⟨_, rfl, _⟩ ⟨_, heq, _⟩
    cases heq
  · rintro _ _ _ (⟨_, rfl, _⟩ | ⟨_, rfl, _⟩) ⟨_, heq, _⟩
    · cases heq
    · cases heq
  · rintro _ _ _ ((⟨_, rfl, _⟩ | ⟨_, rfl, _⟩) | ⟨_, rfl, _⟩) ⟨_, heq, _⟩
    · cases heq
    · cases heq
    · cases heq
  · intro site v
    constructor
    · intro h
      cases h with
      | name hi hflaw => exact .inl (.inl (.inl ⟨(_, _), rfl, _, hi, hflaw⟩))
      | noQuery hnone => exact .inl (.inl (.inr ⟨(), rfl, .inl ⟨hnone, rfl⟩⟩))
      | query hname hflaw => exact .inl (.inl (.inr ⟨(), rfl, .inr ⟨_, hname, hflaw⟩⟩))
      | mutation hname hflaw => exact .inl (.inr ⟨(), rfl, _, hname, hflaw⟩)
      | type hi hnew hflaw => exact .inr ⟨(_, _), rfl, _, hi, hnew, hflaw⟩
    · rintro (((⟨_, rfl, _, hi, hflaw⟩ | ⟨_, rfl, ⟨hnone, rfl⟩ | ⟨_, hname, hflaw⟩⟩) |
        ⟨_, rfl, _, hname, hflaw⟩) | ⟨_, rfl, _, hi, hnew, hflaw⟩)
      · exact .name hi hflaw
      · exact .noQuery hnone
      · exact .query hname hflaw
      · exact .mutation hname hflaw
      · exact .type hi hnew hflaw

/-- What the schema of a draft is: the root types that the draft names, and all definitions in their
order, the built-in scalars first. -/
structure Yields (schema : Schema ω σ) : Prop where
  query : draft.query = some schema.queryType
  mutation : schema.mutationType = draft.mutation
  types : schema.types = draft.definitions.map fun d => (d.name, d)
  possible : schema.possible = possibleIndex schema.types

variable {draft} in
theorem registered_of_sound (h : ∀ site v, ¬ draft.Flaw site v) :
    draft.registered = draft.definitions.map fun d => (d.name, d) := by
  rw [registered, definitions, List.foldl_append, foldl_register_of_new, List.map_append]
  · rfl
  · intro i d hi htaken
    exact h _ _ (.name hi (.repeated htaken))

variable {draft} in
theorem build_of_sound (h : ∀ site v, ¬ draft.Flaw site v) :
    ∃ schema, draft.build = .ok schema ∧ draft.Yields schema := by
  have hviolations : draft.violations = [] := draft.violations_report.eq_nil_iff.mpr h
  match hquery : draft.query with
  | none => exact absurd (.noQuery hquery) (h .query .missingQueryType)
  | some query =>
      have htypes := registered_of_sound h
      refine ⟨⟨query, draft.mutation, draft.registered, possibleIndex draft.registered⟩, ?_, ?_⟩
      · rw [build, hviolations, hquery]
      · rw [htypes]
        exact ⟨hquery, rfl, rfl, rfl⟩

variable {draft} in
theorem build_of_flaw {site : Site} {v : SchemaViolation} (h : draft.Flaw site v) :
    draft.build = .error draft.violations := by
  have hviolations : draft.violations ≠ [] := fun hnil =>
    draft.violations_report.eq_nil_iff.mp hnil site v h
  rw [build]
  split
  · exact absurd ‹_› hviolations
  · rfl

/-- A draft builds exactly if it has no flaw.  Its schema then holds what it defines; otherwise each
flaw is reported once, and nothing else. -/
theorem build_reports :
    ((∃ schema, draft.build = .ok schema) ↔ ∀ site v, ¬ draft.Flaw site v) ∧
      match draft.build with
      | .ok schema => draft.Yields schema
      | .error errors => Reports draft.Flaw errors := by
  by_cases h : ∀ site v, ¬ draft.Flaw site v
  · obtain ⟨schema, hbuild, hyields⟩ := build_of_sound h
    rw [hbuild]
    exact ⟨⟨fun _ => h, fun _ => ⟨schema, rfl⟩⟩, hyields⟩
  · obtain ⟨site, v, hflaw⟩ : ∃ site v, draft.Flaw site v := by
      simpa only [not_forall, not_not] using h
    rw [build_of_flaw hflaw]
    refine ⟨⟨?_, fun hsound => absurd hsound h⟩, draft.violations_report⟩
    rintro ⟨schema, hbuild⟩
    cases hbuild

/-- A draft without a query root type, that defines the type `Droid` twice. -/
def droids : SchemaDraft Unit Unit where
  mutation := some "Mutation"
  types :=
    [.object { name := "Query", interfaces := ["Droid"], fields :=
        [("hero", { name := "hero", type := .list (.nonNullNamed "Character") }),
          ("droid", { name := "droid", type := .named "Droid", arguments :=
            [("filter", { type := .nonNullNamed "Droid" })] })] },
      .object { name := "Droid" },
      .object { name := "Droid" },
      .union { name := "U", members := ["String"] }]

example : droids.violations =
    [.duplicateTypeName "Droid", .missingQueryType, .undefinedRootType .mutation "Mutation",
      .undefinedType "Character" (.field "Query" "hero"),
      .outputTypeAsArgument (.argument "Query" "droid" "filter") (.nonNullNamed "Droid")
        "an object type",
      .notAnInterface "Query" "Droid" "an object type",
      .unionMemberNotObject "U" "String" "a scalar type"] := by
  decide

end SchemaDraft

end GraphQLEngine
