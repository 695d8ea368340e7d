/-
Which requests are refused, and why.

`Schema.Rejects` lists the reasons in the order in which they count: that no
operation is selected, that it is a subscription, that it has no root type, and
that the value of a variable does not fit.  Each reason supposes that those before
it do not apply, so that there is at most one.  An execution is refused just if
there is one, and then without an event; otherwise it never is, but responds, or
goes on deeper than its request allows (`execute_decides`).

When the value of a variable fits its type is left to `Schema.coerceInput`.
-/
import GraphQLEngine.Proofs.Termination

namespace GraphQLEngine

variable {ω σ : Type}

/-! ## The choice of the operation -/

/-- The operation that a name selects is the first of that name, and without a name the only one. -/
inductive Document.Selects (document : Document) : Option Name → Operation → Prop
  | named {name : Name} {operation : Operation} {before after : List Operation} :
      document.operations = before ++ operation :: after → operation.name? = some name →
      (∀ other ∈ before, other.name? ≠ some name) → Selects document (some name) operation
  | only {operation : Operation} :
      document.operations = [operation] → Selects document none operation

/-- Why no operation is selected. -/
inductive Document.Unselectable (document : Document) : Option Name → RequestError → Prop
  | unknown {name : Name} : (∀ operation ∈ document.operations, operation.name? ≠ some name) →
      Unselectable document (some name) (.unknownOperation name)
  | none : document.operations = [] → Unselectable document none .noOperation
  | several : 1 < document.operations.length → Unselectable document none .ambiguousOperation

namespace Document

variable {document : Document} {name? : Option Name} {operation : Operation} {reason : RequestError}

theorem selectOperation_eq_ok_iff :
    document.selectOperation name? = .ok operation ↔ document.Selects name? operation := by
  constructor
  · intro h
    cases name? with
    | some name =>
        rw [selectOperation] at h
        cases hfind : document.operations.find? (fun op => op.name? == some name) with
        | none =>
            rw [hfind] at h
            cases h
        | some op =>
            rw [hfind] at h
            cases h
            obtain ⟨hname, before, after, hsplit, hbefore⟩ := List.find?_eq_some_iff_append.mp hfind
            refine .named hsplit (by simpa using hname) ?_
            intro other hother
            simpa using hbefore other hother
    | none =>
        rw [selectOperation] at h
        rcases hops : document.operations with _ | ⟨op, _ | ⟨second, rest⟩⟩
        · simp [hops] at h
        · simp only [hops, Except.ok.injEq] at h
          exact .only (h ▸ hops)
        · simp [hops] at h
  · intro h
    cases h with
    | @named name _ before after hsplit hname hbefore =>
        have hfind : document.operations.find? (fun op => op.name? == some name) = some operation := by
          refine List.find?_eq_some_iff_append.mpr ⟨by simpa using hname, before, after, hsplit, ?_⟩
          intro other hother
          simpa using hbefore other hother
        rw [selectOperation, hfind]
    | only hops => rw [selectOperation, hops]

theorem selectOperation_eq_error_iff :
    document.selectOperation name? = .error reason ↔ document.Unselectable name? reason := by
  constructor
  · intro h
    cases name? with
    | some name =>
        rw [selectOperation] at h
        cases hfind : document.operations.find? (fun op => op.name? == some name) with
        | some op =>
            rw [hfind] at h
            cases h
        | none =>
            rw [hfind] at h
            cases h
            refine .unknown ?_
            intro operation hmem
            simpa using List.find?_eq_none.mp hfind operation hmem
    | none =>
        rw [selectOperation] at h
        rcases hops : document.operations with _ | ⟨op, _ | ⟨second, rest⟩⟩
        · simp only [hops, Except.error.injEq] at h
          exact h ▸ .none hops
        · simp [hops] at h
        · simp only [hops, Except.error.injEq] at h
          exact h ▸ .several (by simp [hops])
  · intro h
    cases h with
    | @unknown name hnone =>
        have hfind : document.operations.find? (fun op => op.name? == some name) = none := by
          refine List.find?_eq_none.mpr ?_
          intro operation hmem
          simpa using hnone operation hmem
        rw [selectOperation, hfind]
    | none hops => rw [selectOperation, hops]
    | several hlength =>
        rw [selectOperation]
        rcases hops : document.operations with _ | ⟨op, _ | ⟨second, rest⟩⟩
        · simp [hops] at hlength
        · simp [hops] at hlength
        · rfl

end Document

/-! ## Variables -/

/-- A variable has a value, provided or default, that does not fit its type. -/
def Schema.Misfits (schema : Schema ω σ) (provided : JsonObject) (definition : VariableDefinition)
    (reason : InputError) : Prop :=
  ∃ value, variableInput? provided definition = some value ∧
    schema.coerceInput definition.type value = .error reason

/-- The first variable in declaration order whose value does not fit its type. -/
def Schema.FirstMisfit (schema : Schema ω σ) (provided : JsonObject)
    (definitions : List VariableDefinition) (definition : VariableDefinition) (reason : InputError) :
    Prop :=
  ∃ before after, definitions = before ++ definition :: after ∧
    (∀ d ∈ before, ∀ e, ¬ schema.Misfits provided d e) ∧ schema.Misfits provided definition reason

namespace Schema

variable {schema : Schema ω σ} {provided : JsonObject} {d : VariableDefinition}
  {rest : List VariableDefinition} {reason : InputError}

theorem FirstMisfit.later (hd : ∀ e, ¬ schema.Misfits provided d e) {definition : VariableDefinition}
    (h : schema.FirstMisfit provided rest definition reason) :
    schema.FirstMisfit provided (d :: rest) definition reason := by
  obtain ⟨before, after, rfl, hbefore, hmisfit⟩ := h
  exact ⟨d :: before, after, rfl, List.forall_mem_cons.mpr ⟨hd, hbefore⟩, hmisfit⟩

theorem FirstMisfit.of_later (hd : ∀ e, ¬ schema.Misfits provided d e)
    {definition : VariableDefinition}
    (h : schema.FirstMisfit provided (d :: rest) definition reason) :
    schema.FirstMisfit provided rest definition reason := by
  obtain ⟨before, after, hsplit, hbefore, hmisfit⟩ := h
  cases before with
  | nil =>
      cases hsplit
      exact absurd hmisfit (hd reason)
  | cons first before =>
      cases hsplit
      exact ⟨before, after, rfl, (List.forall_mem_cons.mp hbefore).2, hmisfit⟩

/-- Binding fails at the first variable whose value does not fit, and for no other reason. -/
theorem bindVariables_eq_error_iff {error : RequestError} :
    ∀ {definitions : List VariableDefinition} {bound : JsonObject},
      schema.bindVariables provided definitions bound = .error error ↔
        ∃ definition reason, schema.FirstMisfit provided definitions definition reason ∧
          error = .invalidVariable definition.name reason definition.location
  | [], bound => by
      constructor
      · intro h
        cases h
      · rintro ⟨definition, reason, ⟨before, after, hsplit, _⟩, _⟩
        simp at hsplit
  | d :: rest, bound => by
      -- A variable that fits, or has no value, leaves the decision to the later ones.
      have skip : (∀ e, ¬ schema.Misfits provided d e) → ∀ bound',
          (schema.bindVariables provided rest bound' = .error error ↔
            ∃ definition reason, schema.FirstMisfit provided (d :: rest) definition reason ∧
              error = .invalidVariable definition.name reason definition.location) := by
        intro hd bound'
        rw [bindVariables_eq_error_iff]
        constructor
        · rintro ⟨definition, reason, hfirst, heq⟩
          exact ⟨definition, reason, hfirst.later hd, heq⟩
        · rintro ⟨definition, reason, hfirst, heq⟩
          exact ⟨definition, reason, hfirst.of_later hd, heq⟩
      rw [bindVariables]
      cases hinput : variableInput? provided d with
      | none =>
          refine skip ?_ bound
          rintro e ⟨value, hvalue, _⟩
          rw [hinput] at hvalue
          cases hvalue
      | some value =>
          cases hcoerce : schema.coerceInput d.type value with
          | ok coerced =>
              simp only [hcoerce]
              refine skip ?_ _
              rintro e ⟨value', hvalue', herror⟩
              rw [hinput, Option.some.injEq] at hvalue'
              rw [← hvalue', hcoerce] at herror
              cases herror
          | error e =>
              simp only [hcoerce, Except.error.injEq]
              have hmisfit : schema.Misfits provided d e := ⟨value, hinput, hcoerce⟩
              constructor
              · rintro rfl
                exact ⟨d, e, ⟨[], rest, rfl, nofun, hmisfit⟩, rfl⟩
              · rintro ⟨definition, reason, ⟨before, after, hsplit, hbefore, ⟨value', hvalue', herror⟩⟩, rfl⟩
                cases before with
                | cons first before =>
                    cases hsplit
                    exact absurd hmisfit (hbefore _ List.mem_cons_self e)
                | nil =>
                    cases hsplit
                    rw [hinput, Option.some.injEq] at hvalue'
                    rw [← hvalue', hcoerce, Except.error.injEq] at herror
                    rw [herror]

end Schema

/-! ## Reasons to refuse a request -/

/-- The reason for which a request is refused.  Each of the cases supposes that those before it do not
apply. -/
inductive Schema.Rejects (schema : Schema ω σ) (request : Request ω) : RequestError → Prop
  | unselectable {reason : RequestError} :
      request.document.Unselectable request.operationName reason → Rejects schema request reason
  | subscription {operation : Operation} :
      request.document.Selects request.operationName operation → operation.kind = .subscription →
      Rejects schema request .subscription
  | rootless {operation : Operation} :
      request.document.Selects request.operationName operation → operation.kind ≠ .subscription →
      schema.root? operation.kind = none → Rejects schema request (.undefinedRoot operation.kind)
  | misfit {operation : Operation} {definition : VariableDefinition} {reason : InputError} :
      request.document.Selects request.operationName operation → operation.kind ≠ .subscription →
      schema.root? operation.kind ≠ none →
      schema.FirstMisfit request.variableValues operation.variableDefinitions definition reason →
      Rejects schema request (.invalidVariable definition.name reason definition.location)

namespace Schema

variable {schema : Schema ω σ} {request : Request ω} {reason : RequestError} {state : σ}

theorem Rejects.refuses (h : schema.Rejects request reason) : schema.Refuses request reason := by
  cases h with
  | unselectable h => exact .selection (Document.selectOperation_eq_error_iff.mpr h)
  | subscription hselects hkind =>
      exact .subscription (Document.selectOperation_eq_ok_iff.mpr hselects) hkind
  | rootless hselects hkind hroot =>
      exact .undefinedRoot (Document.selectOperation_eq_ok_iff.mpr hselects) hkind hroot
  | misfit hselects hkind hroot hfirst =>
      obtain ⟨root, hroot⟩ := Option.ne_none_iff_exists'.mp hroot
      exact .coercion (Document.selectOperation_eq_ok_iff.mpr hselects) hkind hroot
        (bindVariables_eq_error_iff.mpr ⟨_, _, hfirst, rfl⟩)

/-- Every refusal has one of the reasons. -/
theorem prepare_eq_error_iff : schema.prepare request = .error reason ↔ schema.Rejects request reason := by
  constructor
  · intro h
    cases hselect : request.document.selectOperation request.operationName with
    | error reason' =>
        rw [(Refuses.selection hselect).prepare_eq] at h
        cases h
        exact .unselectable (Document.selectOperation_eq_error_iff.mp hselect)
    | ok operation =>
        have hselects := Document.selectOperation_eq_ok_iff.mp hselect
        by_cases hkind : operation.kind = .subscription
        · rw [(Refuses.subscription hselect hkind).prepare_eq] at h
          cases h
          exact .subscription hselects hkind
        · cases hroot : schema.root? operation.kind with
          | none =>
              rw [(Refuses.undefinedRoot hselect hkind hroot).prepare_eq] at h
              cases h
              exact .rootless hselects hkind hroot
          | some root =>
              cases hbinds : schema.coerceVariables operation request.variableValues with
              | error reason' =>
                  rw [(Refuses.coercion hselect hkind hroot hbinds).prepare_eq] at h
                  cases h
                  obtain ⟨definition, e, hfirst, rfl⟩ := bindVariables_eq_error_iff.mp hbinds
                  have hsome : schema.root? operation.kind ≠ none := by
                    rw [hroot]
                    exact Option.some_ne_none root
                  exact .misfit hselects hkind hsome hfirst
              | ok bindings =>
                  simp [prepare, hselect, hkind, hroot, hbinds, bind, Except.bind, pure,
                    Except.pure] at h
  · exact fun h => h.refuses.prepare_eq

/-- An execution is refused for what its request is rejected for, if it begins at all. -/
theorem execute_eq_refused_iff : (schema.execute request state).ending = .refused reason ↔
    0 < request.rounds ∧ schema.Rejects request reason := by
  rw [← prepare_eq_error_iff, execute]
  cases hrounds : request.rounds with
  | zero => simp
  | succ limit =>
      cases hprepare : schema.prepare request with
      | error reason' => simp
      | ok prepared => simpa using Prepared.runOn_ne_refused (limit + 1) prepared.start state

theorem execute_of_refused (h : (schema.execute request state).ending = .refused reason) :
    schema.execute request state = ⟨.refused reason, none, state, [[]]⟩ := by
  obtain ⟨hpos, hrejects⟩ := execute_eq_refused_iff.mp h
  obtain ⟨limit, hrounds⟩ := Nat.exists_eq_add_of_lt hpos
  rw [execute, prepare_eq_error_iff.mpr hrejects, hrounds, Nat.zero_add]

/-- A request that nothing rejects is prepared. -/
theorem exists_of_not_rejects (h : ∀ reason, ¬ schema.Rejects request reason) :
    ∃ operation root prepared, schema.Prepares request operation root prepared := by
  cases hprepare : schema.prepare request with
  | error reason => exact absurd (prepare_eq_error_iff.mp hprepare) (h reason)
  | ok prepared =>
      obtain ⟨operation, root, hp⟩ := schema.exists_of_prepare hprepare
      exact ⟨operation, root, prepared, hp⟩

end Schema

/-- How the execution of a request is decided. -/
structure Schema.Decides (schema : Schema ω σ) (request : Request ω) (state : σ) : Prop where
  refused_iff : ∀ rounds reason,
    (schema.execute { request with rounds := rounds + 1 } state).ending = .refused reason ↔
      schema.Rejects request reason
  unique : ∀ reason reason', schema.Rejects request reason → schema.Rejects request reason' →
    reason = reason'
  /-- No resolver is called for a request that is refused. -/
  effectless : ∀ rounds reason,
    (schema.execute { request with rounds } state).ending = .refused reason →
      (schema.execute { request with rounds } state).events = [] ∧
        (schema.execute { request with rounds } state).state = state
  /-- Without a reason to reject it, a request is responded to after some rounds, or goes on deeper than
  it allows. -/
  responds : (∀ reason, ¬ schema.Rejects request reason) →
    (∃ rounds response, (schema.execute { request with rounds } state).ending = .responded response) ∨
      ∃ rounds work job, (schema.execute { request with rounds } state).work = some work ∧
        work.Holds job ∧ request.depth < job.path.fieldDepth
  responds_acyclic : request.document.Acyclic → (∀ reason, ¬ schema.Rejects request reason) →
    ∃ enough response, ∀ depth rounds, request.document.depthBound ≤ depth → enough ≤ rounds →
      (schema.execute { request with depth, rounds } state).ending = .responded response

namespace Schema

/-- An execution is refused just if its request is rejected, before any resolver is called, and responds
to every other request. -/
theorem execute_decides (schema : Schema ω σ) (request : Request ω) (state : σ) :
    schema.Decides request state := by
  have hrejects : ∀ rounds reason,
      schema.Rejects { request with rounds } reason ↔ schema.Rejects request reason := by
    intro rounds reason
    rw [← prepare_eq_error_iff, ← prepare_eq_error_iff]
    rfl
  refine ⟨?_, ?_, ?_, ?_, ?_⟩
  · intro rounds reason
    rw [execute_eq_refused_iff, hrejects]
    exact and_iff_right (Nat.succ_pos rounds)
  · intro reason reason' h h'
    rw [← prepare_eq_error_iff] at h h'
    rw [h, Except.error.injEq] at h'
    exact h'
  · intro rounds reason h
    rw [execute_of_refused h]
    exact ⟨rfl, rfl⟩
  · intro h
    obtain ⟨operation, root, prepared, hp⟩ := exists_of_not_rejects h
    exact hp.responds_or_deep state
  · intro hacyclic h
    obtain ⟨operation, root, prepared, hp⟩ := exists_of_not_rejects h
    obtain ⟨enough, run, hends⟩ := (schema.exists_endsWithin hacyclic state)
    obtain ⟨response, hresponse⟩ := hends.responded prepared hp.prepare_eq
    refine ⟨enough, response, ?_⟩
    intro depth rounds hdepth henough
    rw [hends.execute_eq depth rounds hdepth henough, hresponse]

end Schema

/-! ## A clerk -/

def clerkQuery : ObjectType Unit Nat where
  name := "Query"
  fields := [
    ("serve", {
      name := "serve", type := .named "Int"
      resolver? := some ⟨none, fun _ served => (.ok (.leaf (.int served)), served + 1)⟩ })]

/-- A clerk who counts whom he serves. -/
def clerkSchema : Schema Unit Nat where
  queryType := "Query"
  mutationType := none
  types := BuiltIn.scalars.map (fun t => (t.name, .scalar t)) ++ [("Query", .object clerkQuery)]
  possible := []

/-- Three variables, of which the second lacks a value and the third has one of another type. -/
def clerkRequest : Request Unit where
  document := {
    operations := [{
      kind := .query
      name? := some "Serve"
      variableDefinitions := [
        ⟨"counter", .named "Int", some (.int 1), some ⟨1, 13⟩⟩,
        ⟨"number", .nonNullNamed "Int", none, some ⟨2, 13⟩⟩,
        ⟨"urgent", .named "Boolean", none, some ⟨3, 13⟩⟩]
      directives := []
      selections := [.plain "serve" []]
      location := none }]
    fragments := [] }
  operationName := some "Serve"
  variableValues := [("urgent", .str "very"), ("number", .null)]
  root := .json []

/-- The number is missed before the urgency is looked at, and nobody is served. -/
theorem clerkRequest_decided :
    clerkSchema.Rejects clerkRequest
      (.invalidVariable "number" (.nullForNonNull (.nonNullNamed "Int")) (some ⟨2, 13⟩)) ∧
    (clerkSchema.execute { clerkRequest with rounds := 1 } 7).events = [] ∧
    (clerkSchema.execute { clerkRequest with rounds := 1 } 7).state = 7 ∧
    ∃ enough response, ∀ rounds, enough ≤ rounds →
      (clerkSchema.execute { clerkRequest with variableValues := [], rounds } 7).ending =
        .responded response := by
  have hdecides := clerkSchema.execute_decides clerkRequest 7
  have hrefused : (clerkSchema.execute { clerkRequest with rounds := 1 } 7).ending =
      .refused (.invalidVariable "number" (.nullForNonNull (.nonNullNamed "Int")) (some ⟨2, 13⟩)) := by
    decide +kernel
  obtain ⟨hevents, hstate⟩ := hdecides.effectless 1 _ hrefused
  refine ⟨(hdecides.refused_iff 0 _).mp hrefused, hevents, hstate, ?_⟩
  have hacyclic : clerkRequest.document.Acyclic := fun _ _ hget => by cases hget
  have hdecides' := clerkSchema.execute_decides { clerkRequest with variableValues := [] } 7
  have hresponded : (clerkSchema.execute
      { clerkRequest with variableValues := [], rounds := 1 } 7).ending =
        .responded ⟨[], some [("serve", .int 7)]⟩ := by
    decide +kernel
  have hnot : ∀ reason, ¬ clerkSchema.Rejects { clerkRequest with variableValues := [] } reason := by
    intro reason hrejects
    have hboth := (hdecides'.refused_iff 0 reason).mpr hrejects
    rw [hresponded] at hboth
    cases hboth
  obtain ⟨enough, response, hall⟩ := hdecides'.responds_acyclic hacyclic hnot
  exact ⟨enough, response, fun rounds => hall _ rounds (Nat.le_refl _)⟩

end GraphQLEngine
