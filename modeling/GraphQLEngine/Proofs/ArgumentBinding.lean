/-
What a field's arguments are bound to.

`Scope.Takes` says which value a declared argument takes from what the field gives for it,
and `Scope.Faults` in which ways that is not in order.  The arguments that a resolver is
given are those that take a value, in the order of their declarations (`Scope.Binds`); a
field without such arguments fails with the fault of the first one that has a fault
(`Scope.FirstFault`).  Both are characterizations: binding succeeds, and fails, in no other
cases (`coerceArguments_eq_ok_iff`, `coerceArguments_eq_error_iff`).

Declared arguments are taken to have distinct names.  Whether a field declares an argument
that it is given is not checked anywhere, and does not matter here.
-/
import GraphQLEngine.Proofs.InputValues

namespace GraphQLEngine

variable {ω σ : Type}

/-! ## Maps with the same keys -/

/-- Keys in a given order leave a map with its values only. -/
theorem OrderedMap.ext_of_sublist {α : Type} :
    ∀ {names : List String} {m m' : OrderedMap α}, names.Nodup → m.keys.Sublist names →
      m'.keys.Sublist names → (∀ name ∈ names, m.get? name = m'.get? name) → m = m'
  | [], m, m', _, hm, hm', _ => by
      rw [List.map_eq_nil_iff.mp (List.sublist_nil.mp hm), List.map_eq_nil_iff.mp (List.sublist_nil.mp hm')]
  | n :: names, m, m', hnodup, hm, hm', hget => by
      obtain ⟨hn, hnames⟩ := List.nodup_cons.mp hnodup
      obtain ⟨hfirst, hrest⟩ := List.forall_mem_cons.mp hget
      -- A map either begins with the first name, or knows nothing of it.
      have split : ∀ {m : OrderedMap α}, m.keys.Sublist (n :: names) →
          (m.get? n = none ∧ m.keys.Sublist names) ∨
            ∃ a rest, m = (n, a) :: rest ∧ (keys rest).Sublist names := by
        intro m h
        rcases List.sublist_cons_iff.mp h with h | ⟨keys, heq, h⟩
        · exact .inl ⟨get?_eq_none_of_not_mem fun hmem => hn (h.subset hmem), h⟩
        · obtain ⟨⟨k, a⟩, rest, rfl, rfl, rfl⟩ := List.map_eq_cons_iff.mp heq
          exact .inr ⟨a, rest, rfl, h⟩
      rcases split hm with ⟨hnone, hkeys⟩ | ⟨a, rest, rfl, hkeys⟩ <;>
        rcases split hm' with ⟨hnone', hkeys'⟩ | ⟨a', rest', rfl, hkeys'⟩
      · exact ext_of_sublist hnames hkeys hkeys' hrest
      · rw [hnone, get?, if_pos rfl] at hfirst
        cases hfirst
      · rw [hnone', get?, if_pos rfl] at hfirst
        cases hfirst
      · rw [get?, get?, if_pos rfl, if_pos rfl, Option.some.injEq] at hfirst
        have hsame : rest = rest' := by
          refine ext_of_sublist hnames hkeys hkeys' ?_
          intro name hname
          have hne : n ≠ name := fun heq => hn (heq ▸ hname)
          have h := hrest name hname
          rwa [get?, get?, if_neg hne, if_neg hne] at h
        rw [hfirst, hsame]

/-! ## Arguments that a field gives -/

theorem Literal.reference?_eq_some_iff {l : Literal} {name : Name} :
    l.reference? = some name ↔ l = .variableRef name := by
  cases l <;> simp [reference?]

theorem mem_of_argument? {arguments : List Argument} {name : Name} {l : Literal}
    (h : argument? arguments name = some l) : ⟨name, l⟩ ∈ arguments := by
  obtain ⟨a, ha, rfl⟩ := Option.map_eq_some_iff.mp h
  have hname : a.name = name := by simpa using List.find?_some ha
  exact hname ▸ List.mem_of_find?_eq_some ha

/-- Among arguments with distinct names, each is the first with its name. -/
theorem argument?_eq_some_iff {arguments : List Argument}
    (h : (arguments.map Argument.name).Nodup) {name : Name} {l : Literal} :
    argument? arguments name = some l ↔ ⟨name, l⟩ ∈ arguments := by
  refine ⟨mem_of_argument?, fun hmem => ?_⟩
  obtain ⟨l', hl'⟩ : ∃ l', argument? arguments name = some l' := by
    rw [argument?, ← Option.isSome_iff_exists, Option.isSome_map, List.find?_isSome]
    exact ⟨_, hmem, beq_self_eq_true name⟩
  have hsame := List.inj_on_of_nodup_map h hmem (mem_of_argument? hl') rfl
  cases hsame
  exact hl'

/-- The order of arguments with distinct names does not matter. -/
theorem argument?_perm {arguments arguments' : List Argument} (hperm : arguments.Perm arguments')
    (h : (arguments.map Argument.name).Nodup) (name : Name) :
    argument? arguments' name = argument? arguments name := by
  have h' : (arguments'.map Argument.name).Nodup := (hperm.map Argument.name).nodup_iff.mp h
  refine Option.ext fun l => ?_
  rw [argument?_eq_some_iff h, argument?_eq_some_iff h', hperm.mem_iff]

/-- Arguments with other names do not matter. -/
theorem argument?_filter {keep : Name → Bool} {name : Name} (hkeep : keep name = true) :
    ∀ arguments : List Argument,
      argument? (arguments.filter fun a => keep a.name) name = argument? arguments name
  | [] => rfl
  | a :: rest => by
      have ih := argument?_filter hkeep rest
      by_cases hname : a.name = name
      · subst hname
        simp [argument?, hkeep]
      · rw [argument?] at ih ⊢
        rw [argument?, List.filter_cons]
        split
        · rw [List.find?_cons, List.find?_cons, beq_eq_false_iff_ne.mpr hname, ih, argument?]
        · rw [List.find?_cons, beq_eq_false_iff_ne.mpr hname, ih, argument?]

namespace Scope

variable {scope : Scope ω σ} {field : Field} {name : Name} {definition : ArgumentDefinition}
  {given : Option Literal} {value : Option Json} {fault : FieldFault}

/-! ## One argument -/

/-- The value that an argument takes, if any: what its variable is bound to, or else what its literal
is coerced to, and its default where it is not given, or only as a variable without a value. -/
inductive Takes (scope : Scope ω σ) (definition : ArgumentDefinition) (value : Option Json) :
    Option Literal → Prop
  | omitted : value = definition.default? → Takes scope definition value none
  | unbound {name : Name} : OrderedMap.get? scope.bindings name = none →
      value = definition.default? → Takes scope definition value (some (.variableRef name))
  | bound {name : Name} {j : Json} : OrderedMap.get? scope.bindings name = some j →
      value = some j → Takes scope definition value (some (.variableRef name))
  | literal {l : Literal} {j : Json} : l.reference? = none →
      scope.schema.coerceInput definition.type (l.toJson scope.bindings) = .ok j →
      value = some j → Takes scope definition value (some l)

/-- What is wrong with an argument: it lacks a value, or is null, where its type has no null, or its
literal does not fit the type. -/
inductive Faults (scope : Scope ω σ) (name : Name) (definition : ArgumentDefinition)
    (given : Option Literal) : FieldFault → Prop
  | missing : scope.Takes definition none given → definition.type.isNonNull = true →
      Faults scope name definition given (.missingArgument name definition.type)
  | null : scope.Takes definition (some .null) given → definition.type.isNonNull = true →
      Faults scope name definition given (.invalidArgument name (.nullForNonNull definition.type))
  | misfit {l : Literal} {reason : InputError} : given = some l → l.reference? = none →
      scope.schema.coerceInput definition.type (l.toJson scope.bindings) = .error reason →
      Faults scope name definition given (.invalidArgument name reason)

theorem givenValue_literal {type : TypeRef} {l : Literal} (h : l.reference? = none) :
    scope.givenValue type (some l) =
      (scope.schema.coerceInput type (l.toJson scope.bindings)).map some := by
  cases l with
  | variableRef name => cases h
  | _ => rfl

theorem givenValue_eq_error_iff {type : TypeRef} {reason : InputError} :
    scope.givenValue type given = .error reason ↔ ∃ l, given = some l ∧ l.reference? = none ∧
      scope.schema.coerceInput type (l.toJson scope.bindings) = .error reason := by
  cases given with
  | none => simp [givenValue]
  | some l =>
      cases hl : l.reference? with
      | some name =>
          obtain rfl := Literal.reference?_eq_some_iff.mp hl
          simp [givenValue, Literal.reference?]
      | none =>
          rw [givenValue_literal hl]
          cases hcoerce : scope.schema.coerceInput type (l.toJson scope.bindings) with
          | ok j => simp [Except.map, hcoerce]
          | error reason' => simp [Except.map, hl, hcoerce]

/-- What an argument takes is what it is given, or else its default. -/
theorem takes_iff : scope.Takes definition value given ↔
    ∃ held, scope.givenValue definition.type given = .ok held ∧ value = held.or definition.default? := by
  constructor
  · intro h
    cases h with
    | omitted hvalue => exact ⟨none, rfl, hvalue⟩
    | unbound hnone hvalue => exact ⟨none, by rw [givenValue, hnone], hvalue⟩
    | @bound _ j hsome hvalue => exact ⟨some j, by rw [givenValue, hsome], hvalue⟩
    | @literal _ j hl hcoerce hvalue => exact ⟨some j, by rw [givenValue_literal hl, hcoerce]; rfl, hvalue⟩
  · rintro ⟨held, hgiven, hvalue⟩
    cases given with
    | none =>
        cases hgiven
        exact .omitted hvalue
    | some l =>
        cases hl : l.reference? with
        | some name =>
            obtain rfl := Literal.reference?_eq_some_iff.mp hl
            rw [givenValue, Except.ok.injEq] at hgiven
            cases held with
            | none => exact .unbound hgiven hvalue
            | some j => exact .bound hgiven hvalue
        | none =>
            rw [givenValue_literal hl] at hgiven
            cases hcoerce : scope.schema.coerceInput definition.type (l.toJson scope.bindings) with
            | error reason =>
                rw [hcoerce] at hgiven
                cases hgiven
            | ok j =>
                rw [hcoerce] at hgiven
                cases hgiven
                exact .literal hl hcoerce hvalue

/-- What is given for an argument leaves it no choice of value. -/
theorem Takes.unique {value' : Option Json} (h : scope.Takes definition value given)
    (h' : scope.Takes definition value' given) : value = value' := by
  obtain ⟨held, hgiven, rfl⟩ := takes_iff.mp h
  obtain ⟨held', hgiven', rfl⟩ := takes_iff.mp h'
  rw [hgiven, Except.ok.injEq] at hgiven'
  rw [hgiven']

/-- There is a value other than null, where the type of an argument demands one. -/
def Suffices (definition : ArgumentDefinition) (value : Option Json) : Prop :=
  definition.type.isNonNull = true → ∃ j, value = some j ∧ j ≠ .null

theorem argumentValue_of_suffices (htakes : scope.Takes definition value given)
    (hsuffices : Suffices definition value) :
    scope.argumentValue name definition given = .ok value := by
  obtain ⟨held, hgiven, rfl⟩ := takes_iff.mp htakes
  rw [argumentValue, hgiven]
  cases hnonNull : definition.type.isNonNull with
  | false => cases hvalue : held.or definition.default? <;> simp [hvalue]
  | true =>
      obtain ⟨j, hj, hnull⟩ := hsuffices hnonNull
      simp [hj, Json.isNull_iff, hnull]

theorem argumentValue_of_faults (h : scope.Faults name definition given fault) :
    scope.argumentValue name definition given = .error fault := by
  cases h with
  | missing htakes hnonNull =>
      obtain ⟨held, hgiven, hvalue⟩ := takes_iff.mp htakes
      simp [argumentValue, hgiven, ← hvalue, hnonNull]
  | null htakes hnonNull =>
      obtain ⟨held, hgiven, hvalue⟩ := takes_iff.mp htakes
      simp [argumentValue, hgiven, ← hvalue, hnonNull, Json.isNull]
  | misfit hsome hl hcoerce =>
      have hgiven := givenValue_eq_error_iff.mpr ⟨_, hsome, hl, hcoerce⟩
      simp [argumentValue, hgiven]

/-- An argument takes a value that is in order, or has a fault. -/
theorem suffices_or_faults (scope : Scope ω σ) (name : Name) (definition : ArgumentDefinition)
    (given : Option Literal) :
    (∃ value, scope.Takes definition value given ∧ Suffices definition value) ∨
      ∃ fault, scope.Faults name definition given fault := by
  cases hgiven : scope.givenValue definition.type given with
  | error reason =>
      obtain ⟨l, hsome, hl, hcoerce⟩ := givenValue_eq_error_iff.mp hgiven
      exact .inr ⟨_, .misfit hsome hl hcoerce⟩
  | ok held =>
      have htakes := takes_iff.mpr ⟨held, hgiven, rfl⟩
      by_cases hsuffices : Suffices definition (held.or definition.default?)
      · exact .inl ⟨_, htakes, hsuffices⟩
      · obtain ⟨hnonNull, hvalue⟩ := Classical.not_imp.mp hsuffices
        cases hor : held.or definition.default? with
        | none => exact .inr ⟨_, .missing (hor ▸ htakes) hnonNull⟩
        | some j =>
            obtain rfl : j = .null := by
              by_contra hj
              exact hvalue ⟨j, hor, hj⟩
            exact .inr ⟨_, .null (hor ▸ htakes) hnonNull⟩

theorem argumentValue_eq_ok_iff : scope.argumentValue name definition given = .ok value ↔
    scope.Takes definition value given ∧ Suffices definition value := by
  constructor
  · intro h
    rcases scope.suffices_or_faults name definition given with ⟨value', htakes, hsuffices⟩ | ⟨fault, hfaults⟩
    · rw [argumentValue_of_suffices htakes hsuffices, Except.ok.injEq] at h
      exact h ▸ ⟨htakes, hsuffices⟩
    · rw [argumentValue_of_faults hfaults] at h
      cases h
  · rintro ⟨htakes, hsuffices⟩
    exact argumentValue_of_suffices htakes hsuffices

theorem argumentValue_eq_error_iff : scope.argumentValue name definition given = .error fault ↔
    scope.Faults name definition given fault := by
  constructor
  · intro h
    rcases scope.suffices_or_faults name definition given with ⟨value, htakes, hsuffices⟩ | ⟨fault', hfaults⟩
    · rw [argumentValue_of_suffices htakes hsuffices] at h
      cases h
    · rw [argumentValue_of_faults hfaults, Except.error.injEq] at h
      exact h ▸ hfaults
  · exact argumentValue_of_faults

/-! ## All arguments -/

variable {definitions rest : OrderedMap ArgumentDefinition} {arguments : JsonObject}

/-- The arguments that a resolver is given. -/
structure Binds (scope : Scope ω σ) (field : Field) (definitions : OrderedMap ArgumentDefinition)
    (arguments : JsonObject) : Prop where
  ordered : (OrderedMap.keys arguments).Sublist definitions.keys
  /-- An argument is present just if it takes a value, with that value. -/
  takes : ∀ name definition, (name, definition) ∈ definitions →
    scope.Takes definition (OrderedMap.get? arguments name) (argument? field.arguments name)
  required : ∀ name definition, (name, definition) ∈ definitions → definition.type.isNonNull = true →
    ∃ j, OrderedMap.get? arguments name = some j ∧ j ≠ .null

/-- The fault of the first argument in declaration order that has one. -/
def FirstFault (scope : Scope ω σ) (field : Field) (definitions : OrderedMap ArgumentDefinition)
    (fault : FieldFault) : Prop :=
  ∃ before name definition after, definitions = before ++ (name, definition) :: after ∧
    (∀ n d, (n, d) ∈ before → ∀ other, ¬ scope.Faults n d (argument? field.arguments n) other) ∧
    scope.Faults name definition (argument? field.arguments name) fault

theorem FirstFault.later
    (hfirst : ∀ other, ¬ scope.Faults name definition (argument? field.arguments name) other)
    (h : scope.FirstFault field rest fault) : scope.FirstFault field ((name, definition) :: rest) fault := by
  obtain ⟨before, n, d, after, rfl, hbefore, hfaults⟩ := h
  refine ⟨(name, definition) :: before, n, d, after, rfl, ?_, hfaults⟩
  intro n' d' hmem
  rcases List.mem_cons.mp hmem with heq | hmem
  · cases heq
    exact hfirst
  · exact hbefore n' d' hmem

/-- Arguments are bound one after the other, up to the first that fails. -/
theorem coerceArguments_append (scope : Scope ω σ) (field : Field)
    (after : OrderedMap ArgumentDefinition) : ∀ before : OrderedMap ArgumentDefinition,
      scope.coerceArguments field (before ++ after) =
        match scope.coerceArguments field before with
        | .error fault => .error fault
        | .ok arguments => (scope.coerceArguments field after).map (arguments ++ ·)
  | [] => by
      rw [coerceArguments, List.nil_append]
      cases scope.coerceArguments field after <;> rfl
  | (n, d) :: before => by
      rw [List.cons_append, coerceArguments, coerceArguments, coerceArguments_append scope field after before]
      cases scope.argumentValue n d (argument? field.arguments n) with
      | error fault => rfl
      | ok value =>
          cases value <;> cases scope.coerceArguments field before <;>
            cases scope.coerceArguments field after <;> rfl

/-- Faultless arguments can be bound. -/
theorem exists_coerceArguments : ∀ {definitions : OrderedMap ArgumentDefinition},
    (∀ n d, (n, d) ∈ definitions → ∀ fault, ¬ scope.Faults n d (argument? field.arguments n) fault) →
    ∃ arguments, scope.coerceArguments field definitions = .ok arguments := by
  intro definitions h
  cases hargs : scope.coerceArguments field definitions with
  | ok arguments => exact ⟨arguments, rfl⟩
  | error fault =>
      obtain ⟨n, d, hmem, herror⟩ := exists_of_coerceArguments_error hargs
      exact absurd (argumentValue_eq_error_iff.mp herror) (h n d hmem fault)

theorem keys_of_coerceArguments : ∀ {definitions : OrderedMap ArgumentDefinition} {arguments : JsonObject},
    scope.coerceArguments field definitions = .ok arguments →
    (OrderedMap.keys arguments).Sublist definitions.keys
  | [], arguments, h => by
      cases h
      exact List.Sublist.slnil
  | (n, d) :: rest, arguments, h => by
      rw [coerceArguments] at h
      cases hvalue : scope.argumentValue n d (argument? field.arguments n) with
      | error fault =>
          rw [hvalue] at h
          cases h
      | ok value =>
          rw [hvalue] at h
          cases value with
          | none => exact (keys_of_coerceArguments h).cons n
          | some j =>
              cases hrest : scope.coerceArguments field rest with
              | error fault =>
                  rw [hrest] at h
                  cases h
              | ok later =>
                  rw [hrest] at h
                  cases h
                  exact (keys_of_coerceArguments hrest).cons_cons n

theorem binds_of_coerceArguments (hdistinct : definitions.keys.Nodup)
    (h : scope.coerceArguments field definitions = .ok arguments) :
    scope.Binds field definitions arguments := by
  have hvalue : ∀ n d, (n, d) ∈ definitions →
      scope.Takes d (OrderedMap.get? arguments n) (argument? field.arguments n) ∧
        Suffices d (OrderedMap.get? arguments n) :=
    fun _ _ hmem => argumentValue_eq_ok_iff.mp (argumentValue_of_coerceArguments hdistinct hmem h)
  exact ⟨keys_of_coerceArguments h, fun n d hmem => (hvalue n d hmem).1, fun n d hmem => (hvalue n d hmem).2⟩

theorem firstFault_of_coerceArguments : ∀ {definitions : OrderedMap ArgumentDefinition},
    scope.coerceArguments field definitions = .error fault → scope.FirstFault field definitions fault
  | (n, d) :: rest, h => by
      cases hvalue : scope.argumentValue n d (argument? field.arguments n) with
      | error fault' =>
          rw [coerceArguments, hvalue] at h
          cases h
          refine ⟨[], n, d, rest, rfl, ?_, argumentValue_eq_error_iff.mp hvalue⟩
          rintro _ _ ⟨⟩
      | ok value =>
          have hfaultless : ∀ other, ¬ scope.Faults n d (argument? field.arguments n) other := by
            intro other hother
            rw [argumentValue_of_faults hother] at hvalue
            cases hvalue
          rcases coerceArguments_cons_error_cases h with hfirst | hlater
          · exact absurd (argumentValue_eq_error_iff.mp hfirst) (hfaultless fault)
          · exact (firstFault_of_coerceArguments hlater).later hfaultless

/-- Only one map has the arguments that are bound. -/
theorem Binds.unique {arguments' : JsonObject} (hdistinct : definitions.keys.Nodup)
    (h : scope.Binds field definitions arguments) (h' : scope.Binds field definitions arguments') :
    arguments = arguments' := by
  refine OrderedMap.ext_of_sublist hdistinct h.ordered h'.ordered ?_
  intro name hname
  obtain ⟨⟨_, d⟩, hmem, rfl⟩ := List.mem_map.mp hname
  exact (h.takes _ d hmem).unique (h'.takes _ d hmem)

/-- Binding gives the arguments that are bound, and gives them whenever there are any. -/
theorem coerceArguments_eq_ok_iff (hdistinct : definitions.keys.Nodup) :
    scope.coerceArguments field definitions = .ok arguments ↔ scope.Binds field definitions arguments := by
  refine ⟨binds_of_coerceArguments hdistinct, fun h => ?_⟩
  have hfaultless : ∀ n d, (n, d) ∈ definitions →
      ∀ fault, ¬ scope.Faults n d (argument? field.arguments n) fault := by
    intro n d hmem fault hfaults
    have herror := argumentValue_of_faults hfaults
    rw [argumentValue_of_suffices (h.takes n d hmem) (h.required n d hmem)] at herror
    cases herror
  obtain ⟨arguments', hargs⟩ := exists_coerceArguments hfaultless
  rw [hargs, (binds_of_coerceArguments hdistinct hargs).unique hdistinct h]

/-- Binding fails with the first fault, and for no other reason. -/
theorem coerceArguments_eq_error_iff :
    scope.coerceArguments field definitions = .error fault ↔ scope.FirstFault field definitions fault := by
  refine ⟨firstFault_of_coerceArguments, ?_⟩
  rintro ⟨before, n, d, after, rfl, hbefore, hfaults⟩
  obtain ⟨arguments, hargs⟩ := exists_coerceArguments hbefore
  rw [coerceArguments_append, hargs, coerceArguments, argumentValue_of_faults hfaults]
  rfl

/-- Of what a field gives, binding looks at the first argument with each declared name. -/
theorem coerceArguments_congr {scope' : Scope ω σ} {other : Field} :
    ∀ {definitions : OrderedMap ArgumentDefinition},
      (∀ n d, (n, d) ∈ definitions → scope'.argumentValue n d (argument? other.arguments n) =
        scope.argumentValue n d (argument? field.arguments n)) →
      scope'.coerceArguments other definitions = scope.coerceArguments field definitions
  | [], _ => rfl
  | (n, d) :: rest, h => by
      rw [coerceArguments, coerceArguments, h n d List.mem_cons_self,
        coerceArguments_congr fun n' d' hmem => h n' d' (List.mem_cons_of_mem _ hmem)]

end Scope

/-! ## Fields -/

/-- How the arguments of a field of an object are bound. -/
structure Scope.BindsArguments (scope : Scope ω σ) (group : FieldGroup)
    (definition : FieldDefinition ω σ) : Prop where
  bound_iff : ∀ arguments,
    scope.coerceArguments group.first definition.arguments = .ok arguments ↔
      scope.Binds group.first definition.arguments arguments
  refused_iff : ∀ fault,
    scope.coerceArguments group.first definition.arguments = .error fault ↔
      scope.FirstFault group.first definition.arguments fault
  /-- The resolver is told what the arguments are bound to. -/
  resolves : ∀ site arguments, scope.Binds group.first definition.arguments arguments →
    scope.beginField site group definition = scope.resolve group definition (site.info group arguments)
  /-- A fault is the only error, at the position of the field, and no resolver is called. -/
  fails : ∀ site fault state, scope.FirstFault group.first definition.arguments fault →
    ∃ task, (scope.beginField site group definition).run state = (task, state, []) ∧
      task.outcome? = some ⟨none, [fault.toError (site.fieldPath group) group]⟩
  /-- Only the first field of the group counts, and of it the first argument with each declared name. -/
  first : ∀ other : FieldGroup,
    (∀ name ∈ definition.arguments.keys,
      argument? other.first.arguments name = argument? group.first.arguments name) →
    scope.coerceArguments other.first definition.arguments =
      scope.coerceArguments group.first definition.arguments
  /-- The order of arguments with distinct names does not count. -/
  reordered : ∀ arguments, group.first.arguments.Perm arguments →
    (group.first.arguments.map Argument.name).Nodup →
    scope.coerceArguments { group.first with arguments } definition.arguments =
      scope.coerceArguments group.first definition.arguments
  /-- Arguments that are not declared do not count. -/
  undeclared :
    scope.coerceArguments { group.first with
        arguments := group.first.arguments.filter fun a => definition.arguments.contains a.name }
        definition.arguments =
      scope.coerceArguments group.first definition.arguments

namespace Scope

/-- Binding sees the arguments of a field by their declared names. -/
theorem coerceArguments_eq_of_argument? (scope : Scope ω σ) {field other : Field}
    {definitions : OrderedMap ArgumentDefinition}
    (h : ∀ name ∈ definitions.keys, argument? other.arguments name = argument? field.arguments name) :
    scope.coerceArguments other definitions = scope.coerceArguments field definitions := by
  refine coerceArguments_congr fun n d hmem => ?_
  rw [h n (List.mem_map.mpr ⟨_, hmem, rfl⟩)]

/-- The arguments of a field are bound to what it gives for those that are declared, or the first of them
that has a fault fails the field. -/
theorem binds_arguments (scope : Scope ω σ) (group : FieldGroup) (definition : FieldDefinition ω σ)
    (hdistinct : definition.arguments.keys.Nodup) : scope.BindsArguments group definition where
  bound_iff := fun _ => coerceArguments_eq_ok_iff hdistinct
  refused_iff := fun _ => coerceArguments_eq_error_iff
  resolves := by
    intro site arguments hbinds
    rw [beginField, (coerceArguments_eq_ok_iff hdistinct).mpr hbinds]
  fails := by
    intro site fault state hfault
    refine ⟨fault.toTask (site.fieldPath group) group, ?_, rfl⟩
    rw [beginField, coerceArguments_eq_error_iff.mpr hfault]
    rfl
  first := fun _ h => scope.coerceArguments_eq_of_argument? h
  reordered := by
    intro arguments hperm hnodup
    exact scope.coerceArguments_eq_of_argument? fun name _ => argument?_perm hperm hnodup name
  undeclared := by
    refine scope.coerceArguments_eq_of_argument? fun name hname => ?_
    exact argument?_filter (OrderedMap.contains_iff_mem_keys.mpr hname) group.first.arguments

end Scope

/-! ## A loaf -/

def loafField : FieldDefinition Unit Unit where
  name := "bake"
  arguments := [
    ("grams", { type := .nonNullNamed "Int" }),
    ("heat", { type := .named "Int", default? := some (.int 180) }),
    ("salted", { type := .named "Boolean", default? := some (.bool true) }),
    ("seeds", { type := .list (.nonNullNamed "String") }),
    ("shape", { type := .named "String" })]
  type := .named "String"

/-- Whether the loaf is salted is left open, and nothing is said of the oven. -/
def loafScope : Scope Unit Unit where
  schema := {
    queryType := "Query"
    mutationType := none
    types := BuiltIn.scalars.map (fun t => (t.name, .scalar t))
    possible := [] }
  fragments := []
  bindings := [("salted", .null)]
  width := none

def loafGroup (arguments : List Argument) : FieldGroup where
  key := "loaf"
  first := ⟨some "loaf", "bake", arguments, [], [], some ⟨1, 3⟩⟩
  others := [⟨some "loaf", "bake", [⟨"grams", .int 750⟩], [], [], some ⟨2, 3⟩⟩]

/-- An argument that is repeated, one that is not declared, one of a single item, a null and a variable
without a value: and a loaf that lacks its weight, whatever the heat. -/
theorem loafField_binds_arguments :
    loafField.arguments.keys.Nodup ∧
      loafScope.Binds
        (loafGroup [⟨"seeds", .string "poppy"⟩, ⟨"salted", .variableRef "salted"⟩, ⟨"grams", .int 500⟩,
          ⟨"heat", .variableRef "oven"⟩, ⟨"sugar", .int 3⟩, ⟨"grams", .string "a pound"⟩]).first
        loafField.arguments
        [("grams", .int 500), ("heat", .int 180), ("salted", .null), ("seeds", .arr [.str "poppy"])] ∧
      loafScope.FirstFault (loafGroup [⟨"heat", .string "hot"⟩]).first loafField.arguments
        (.missingArgument "grams" (.nonNullNamed "Int")) := by
  have hdistinct : loafField.arguments.keys.Nodup := by decide
  refine ⟨hdistinct, ?_, ?_⟩
  · exact ((loafScope.binds_arguments (loafGroup _) loafField hdistinct).bound_iff _).mp rfl
  · exact ((loafScope.binds_arguments (loafGroup _) loafField hdistinct).refused_iff _).mp rfl

end GraphQLEngine
