/-
What an execution made of each position of its response.

An account is the tree of positions that were reached, with their declared
types and with what was resolved for them.  `Scope.Accounts` says, without
rounds or turns, which accounts a task can have: every resolver gives an
answer that it gave by the log, and every answer is completed against the
declared type.  The main statement, `execute_accounts`, is that each response
is the outcome of an account of the request, by the log of the run.

An account does not say when a resolver answered, or in which state.
-/
import GraphQLEngine.Proofs.Completion
import GraphQLEngine.Proofs.Outcome
import GraphQLEngine.Proofs.Round

namespace GraphQLEngine

variable {ω σ : Type}

mutual

/-- What an execution made of one position. -/
inductive Account (ω σ : Type) where
  /-- A value with nothing below it. -/
  | value (json : Json)
  /-- An error at this position. -/
  | failed (error : ResponseError)
  /-- What was resolved for the position, and what it was completed to. -/
  | answered (answer : Except ResolverFailure (Resolved ω)) (account : Account ω σ)
  | branch (shape : Shape ω σ) (parts : List (Placed ω σ))

/-- The account of a position below another one. -/
inductive Placed (ω σ : Type) where
  | mk (position : Position) (account : Account ω σ)

end

/-! ## Reading accounts -/

mutual

/-- What the work on a position came to. -/
def Account.outcome : Account ω σ → Outcome
  | .value json => ⟨some json, []⟩
  | .failed error => ⟨none, [error]⟩
  | .answered _ account => account.outcome
  | .branch shape parts => shape.join (Placed.outcomes parts)

/-- The outcomes of parts, each after its position had the chance to take up a null. -/
def Placed.outcomes : List (Placed ω σ) → List (PathSegment × Outcome)
  | [] => []
  | .mk position account :: rest =>
    (position.segment, account.outcome.settle position.type) :: Placed.outcomes rest

end

namespace Placed

def position : Placed ω σ → Position
  | .mk position _ => position

def account : Placed ω σ → Account ω σ
  | .mk _ account => account

def segment (part : Placed ω σ) : PathSegment :=
  part.position.segment

def type (part : Placed ω σ) : TypeRef :=
  part.position.type

/-- What a part comes to, after its position had the chance to take up a null. -/
def settled (part : Placed ω σ) : Outcome :=
  part.account.outcome.settle part.type

theorem outcomes_eq_map : ∀ parts : List (Placed ω σ),
    outcomes parts = parts.map (fun part => (part.segment, part.settled))
  | [] => rfl
  | .mk _ _ :: rest => congrArg (_ :: ·) (outcomes_eq_map rest)

end Placed

/-- Induction on accounts, with a hypothesis for every part of a branch. -/
@[induction_eliminator]
theorem Account.induct {P : Account ω σ → Prop} (value : ∀ json, P (.value json))
    (failed : ∀ error, P (.failed error))
    (answered : ∀ answer account, P account → P (.answered answer account))
    (branch : ∀ shape parts, (∀ part ∈ parts, P part.account) → P (.branch shape parts)) :
    ∀ account, P account
  | .value json => value json
  | .failed error => failed error
  | .answered answer account =>
      answered answer account (Account.induct value failed answered branch account)
  | .branch shape parts =>
      branch shape parts fun part h =>
        have : sizeOf part.account < sizeOf parts := by
          have hmem := List.sizeOf_lt_of_mem h
          cases part
          simp only [Placed.account, Placed.mk.sizeOf_spec] at hmem ⊢
          omega
        Account.induct value failed answered branch part.account
termination_by account => sizeOf account

/-! ## The accounts of a task -/

mutual

/-- An account that the work on a task can come to. -/
inductive Scope.Accounts (scope : Scope ω σ) (log : List (Event ω)) : Task ω σ → Account ω σ → Prop
  | value (json : Json) : Scope.Accounts scope log (.value json) (.value json)
  | failed (error : ResponseError) : Scope.Accounts scope log (.failed error) (.failed error)
  | item {group : FieldGroup} {type : TypeRef} {path : Path}
      {answer : Except ResolverFailure (Resolved ω)} {account : Account ω σ} :
      Scope.Accounts scope log (scope.completeAnswer group type path answer) account →
      Scope.Accounts scope log (.unstarted (.item group type path answer)) (.answered answer account)
  | refused {site : Site ω σ} {group : FieldGroup} {definition : FieldDefinition ω σ}
      {fault : FieldFault} :
      scope.coerceArguments group.first definition.arguments = .error fault →
      Scope.Accounts scope log (.unstarted (.field site group definition))
        (.failed (fault.toError (site.fieldPath group) group))
  | field {site : Site ω σ} {group : FieldGroup} {definition : FieldDefinition ω σ}
      {arguments : JsonObject} {answer : Except ResolverFailure (Resolved ω)}
      {account : Account ω σ} :
      scope.coerceArguments group.first definition.arguments = .ok arguments →
      definition.Answers log (site.info group arguments) answer →
      Scope.Accounts scope log
        (scope.completeAnswer group definition.type (site.fieldPath group) answer) account →
      Scope.Accounts scope log (.unstarted (.field site group definition)) (.answered answer account)
  | waiting {rounds : Nat} {call : Call ω σ} {answer : Except ResolverFailure (Resolved ω)}
      {account : Account ω σ} :
      call.resolver.Answers log call.info answer →
      Scope.Accounts scope log
        (scope.completeAnswer call.group call.type call.info.path answer) account →
      Scope.Accounts scope log (.waiting rounds call) (.answered answer account)
  | branch {shape : Shape ω σ} {turns : Turns} {children : List (Child ω σ)}
      {parts : List (Placed ω σ)} :
      Scope.AccountsAll scope log children parts →
      Scope.Accounts scope log (.branch shape turns children) (.branch shape parts)

/-- Accounts of all children that have a place in the response. -/
inductive Scope.AccountsAll (scope : Scope ω σ) (log : List (Event ω)) :
    List (Child ω σ) → List (Placed ω σ) → Prop
  | nil : Scope.AccountsAll scope log [] []
  | absent {key : Name} {children : List (Child ω σ)} {parts : List (Placed ω σ)} :
      Scope.AccountsAll scope log children parts →
      Scope.AccountsAll scope log (.absent key :: children) parts
  | cons {position : Position} {task : Task ω σ} {account : Account ω σ}
      {children : List (Child ω σ)} {parts : List (Placed ω σ)} :
      Scope.Accounts scope log task account → Scope.AccountsAll scope log children parts →
      Scope.AccountsAll scope log (.mk position task :: children) (.mk position account :: parts)

end

namespace Scope

/-- Accounts of the fields of a mutation: none after a field that passes a null on. -/
inductive AccountsInOrder (scope : Scope ω σ) (log : List (Event ω)) :
    List (Child ω σ) → List (Placed ω σ) → Prop
  | nil : AccountsInOrder scope log [] []
  | absent {key : Name} {children : List (Child ω σ)} {parts : List (Placed ω σ)} :
      AccountsInOrder scope log children parts →
      AccountsInOrder scope log (.absent key :: children) parts
  | stop {position : Position} {task : Task ω σ} {account : Account ω σ}
      {children : List (Child ω σ)} :
      scope.Accounts log task account → (account.outcome.settle position.type).value = none →
      AccountsInOrder scope log (.mk position task :: children) [.mk position account]
  | next {position : Position} {task : Task ω σ} {account : Account ω σ}
      {children : List (Child ω σ)} {parts : List (Placed ω σ)} :
      scope.Accounts log task account → (account.outcome.settle position.type).value ≠ none →
      AccountsInOrder scope log children parts →
      AccountsInOrder scope log (.mk position task :: children) (.mk position account :: parts)

/-- An account that the work on an operation can come to. -/
inductive WorkAccounts (scope : Scope ω σ) (log : List (Event ω)) : Work ω σ → Account ω σ → Prop
  | query {task : Task ω σ} {account : Account ω σ} :
      scope.Accounts log task account → WorkAccounts scope log (.query task) account
  | mutation {site : Site ω σ} {fields : List (Child ω σ)} {parts : List (Placed ω σ)} :
      scope.AccountsInOrder log fields parts →
      WorkAccounts scope log (.mutation site fields) (.branch (.object site) parts)

variable {scope : Scope ω σ} {log : List (Event ω)}

/-! ## Parts -/

/-- A part of an account is an account of a child at its position. -/
theorem AccountsAll.exists_task : ∀ {children : List (Child ω σ)} {parts : List (Placed ω σ)},
    scope.AccountsAll log children parts → ∀ part ∈ parts,
      ∃ task, .mk part.position task ∈ children ∧ scope.Accounts log task part.account
  | _, _, .nil, _, h => by cases h
  | _, _, .absent ha, part, h => by
      obtain ⟨task, hmem, htask⟩ := AccountsAll.exists_task ha part h
      exact ⟨task, List.mem_cons_of_mem _ hmem, htask⟩
  | _, _, .cons htask ha, part, h => by
      rcases List.mem_cons.mp h with rfl | h
      · exact ⟨_, List.mem_cons_self, htask⟩
      · obtain ⟨task, hmem, htask⟩ := AccountsAll.exists_task ha part h
        exact ⟨task, List.mem_cons_of_mem _ hmem, htask⟩

theorem AccountsAll.segments : ∀ {children : List (Child ω σ)} {parts : List (Placed ω σ)},
    scope.AccountsAll log children parts →
      parts.map Placed.segment = children.filterMap Child.segment?
  | _, _, .nil => rfl
  | _, _, .absent ha => ha.segments
  | _, _, .cons _ ha => congrArg (_ :: ·) ha.segments

/-- The fields of a mutation that were worked on are a first part of all its fields. -/
theorem AccountsInOrder.exists_take {children : List (Child ω σ)} {parts : List (Placed ω σ)}
    (h : scope.AccountsInOrder log children parts) :
    ∃ n, scope.AccountsAll log (children.take n) parts := by
  induction h with
  | nil => exact ⟨0, .nil⟩
  | absent _ ih =>
      obtain ⟨n, hn⟩ := ih
      exact ⟨n + 1, .absent hn⟩
  | stop ha _ => exact ⟨1, .cons ha .nil⟩
  | next ha _ _ ih =>
      obtain ⟨n, hn⟩ := ih
      exact ⟨n + 1, .cons ha hn⟩

/-! ## Finished work -/

mutual

theorem exists_accounts (scope : Scope ω σ) : ∀ {t : Task ω σ} {o : Outcome}, t.outcome? = some o →
    ∃ account, scope.Accounts log t account ∧ account.outcome = o
  | .value json, o, h => by
      simp only [Task.outcome?, Option.some.injEq] at h
      exact ⟨.value json, .value json, h⟩
  | .failed error, o, h => by
      simp only [Task.outcome?, Option.some.injEq] at h
      exact ⟨.failed error, .failed error, h⟩
  | .unstarted _, _, h => by simp [Task.outcome?] at h
  | .waiting _ _, _, h => by simp [Task.outcome?] at h
  | .branch shape turns children, o, h => by
      simp only [Task.outcome?, Option.map_eq_some_iff] at h
      obtain ⟨os, hos, rfl⟩ := h
      obtain ⟨parts, hparts, rfl⟩ := exists_accountsAll scope hos
      exact ⟨.branch shape parts, .branch hparts, rfl⟩

theorem exists_accountsAll (scope : Scope ω σ) :
    ∀ {children : List (Child ω σ)} {os : List (PathSegment × Outcome)},
    Child.outcomes? children = some os →
    ∃ parts, scope.AccountsAll log children parts ∧ Placed.outcomes parts = os
  | [], os, h => by
      simp only [Child.outcomes?, Option.some.injEq] at h
      exact ⟨[], .nil, h⟩
  | .absent _ :: rest, os, h => by
      obtain ⟨parts, hparts, ho⟩ :=
        exists_accountsAll scope (show Child.outcomes? rest = some os from h)
      exact ⟨parts, .absent hparts, ho⟩
  | .mk position _ :: _, _, h => by
      obtain ⟨o, os', ht, hr, rfl⟩ := Child.outcomes?_mk_cons.mp h
      obtain ⟨account, ha, rfl⟩ := exists_accounts scope ht
      obtain ⟨parts, hparts, rfl⟩ := exists_accountsAll scope hr
      exact ⟨.mk position account :: parts, .cons ha hparts, rfl⟩

end

mutual

/-- A finished task has no other outcome than its own. -/
theorem Accounts.outcome_eq : ∀ {t : Task ω σ} {account : Account ω σ} {o : Outcome},
    scope.Accounts log t account → t.outcome? = some o → account.outcome = o
  | .value _, _, _, ha, h => by
      cases ha
      exact Option.some.inj h
  | .failed _, _, _, ha, h => by
      cases ha
      exact Option.some.inj h
  | .unstarted _, _, _, _, h => by simp [Task.outcome?] at h
  | .waiting _ _, _, _, _, h => by simp [Task.outcome?] at h
  | .branch _ _ children, _, _, ha, h => by
      cases ha with
      | branch hparts =>
          simp only [Task.outcome?, Option.map_eq_some_iff] at h
          obtain ⟨os, hos, rfl⟩ := h
          simp only [Account.outcome, AccountsAll.outcomes_eq hparts hos]

theorem AccountsAll.outcomes_eq : ∀ {children : List (Child ω σ)} {parts : List (Placed ω σ)}
    {os : List (PathSegment × Outcome)},
    scope.AccountsAll log children parts → Child.outcomes? children = some os →
    Placed.outcomes parts = os
  | [], _, _, ha, h => by
      cases ha
      exact Option.some.inj h
  | .absent _ :: rest, _, _, ha, h => by
      cases ha with
      | absent hparts =>
          exact AccountsAll.outcomes_eq hparts (show Child.outcomes? rest = some _ from h)
  | .mk _ _ :: _, _, _, ha, h => by
      obtain ⟨o, os', ht, hr, rfl⟩ := Child.outcomes?_mk_cons.mp h
      cases ha with
      | cons ha hparts =>
          rw [Placed.outcomes, Accounts.outcome_eq ha ht, AccountsAll.outcomes_eq hparts hr]

end

/-! ## Accounts go back through rounds -/

/-- Every account of the second task has a counterpart, with the same outcome, of the first. -/
def Recounts (scope : Scope ω σ) (log : List (Event ω)) (t t' : Task ω σ) : Prop :=
  ∀ account', scope.Accounts log t' account' →
    ∃ account, scope.Accounts log t account ∧ account.outcome = account'.outcome

theorem Accounts.of_begins {job : Job ω σ} {t : Task ω σ} (h : scope.Begins log job t) :
    scope.Recounts log (.unstarted job) t := by
  intro account' ha
  cases h with
  | item => exact ⟨.answered _ account', .item ha, rfl⟩
  | refused hargs =>
      cases ha
      exact ⟨_, .refused hargs, rfl⟩
  | answered hargs hans => exact ⟨.answered _ account', .field hargs hans ha, rfl⟩
  | waiting hargs hres _ =>
      cases ha with
      | waiting hans ha =>
          exact ⟨.answered _ _, .field hargs (by simpa [FieldDefinition.Answers, hres] using hans) ha,
            rfl⟩

theorem AccountsAll.of_forall₂ :
    ∀ {children children' : List (Child ω σ)} {parts' : List (Placed ω σ)},
      List.Forall₂ (Child.Rel (scope.Recounts log)) children children' →
      scope.AccountsAll log children' parts' →
      ∃ parts, scope.AccountsAll log children parts ∧ Placed.outcomes parts = Placed.outcomes parts'
  | [], _, _, .nil, ha => by
      cases ha
      exact ⟨[], .nil, rfl⟩
  | _ :: rest, _, _, .cons hc hrest, ha => by
      cases hc with
      | absent =>
          cases ha with
          | absent ha =>
              obtain ⟨parts, hparts, ho⟩ := AccountsAll.of_forall₂ hrest ha
              exact ⟨parts, .absent hparts, ho⟩
      | @mk position _ _ hc =>
          cases ha with
          | cons ha hr =>
              obtain ⟨account, haccount, ho⟩ := hc _ ha
              obtain ⟨parts, hparts, hos⟩ := AccountsAll.of_forall₂ hrest hr
              exact ⟨.mk position account :: parts, .cons haccount hparts, by
                rw [Placed.outcomes, Placed.outcomes, ho, hos]⟩

theorem roundRel_recounts (scope : Scope ω σ) : scope.RoundRel log (fun _ => scope.Recounts log) where
  refl _ account ha := ⟨account, ha, rfl⟩
  trans _ _ _ hab hbc account ha := by
    obtain ⟨account', ha', ho'⟩ := hbc account ha
    obtain ⟨account'', ha'', ho''⟩ := hab account' ha'
    exact ⟨account'', ha'', ho''.trans ho'⟩
  begun h := Accounts.of_begins h
  waited account' ha := by
    cases ha with
    | waiting hans ha => exact ⟨_, .waiting hans ha, rfl⟩
  resumed h account' ha := by
    obtain ⟨answer, hans, rfl⟩ := h
    exact ⟨.answered answer account', .waiting hans ha, rfl⟩
  branched h _ account' ha := by
    cases ha with
    | branch hparts =>
        obtain ⟨parts, hparts', ho⟩ := AccountsAll.of_forall₂ h hparts
        exact ⟨_, .branch hparts', by rw [Account.outcome, Account.outcome, ho]⟩

/-! ## Operations -/

theorem AccountsInOrder.of_serially {children children' : List (Child ω σ)}
    {parts' : List (Placed ω σ)} (h : Child.Serially (scope.Recounts log) children children')
    (ha : scope.AccountsInOrder log children' parts') :
    ∃ parts, scope.AccountsInOrder log children parts ∧
      Placed.outcomes parts = Placed.outcomes parts' := by
  induction h generalizing parts' with
  | nil => exact ⟨_, ha, rfl⟩
  | wait hc _ =>
      cases hc with
      | absent => exact ⟨_, ha, rfl⟩
      | mk hc =>
          cases ha with
          | stop ha hn =>
              obtain ⟨account, haccount, ho⟩ := hc _ ha
              exact ⟨_, .stop haccount (ho ▸ hn), by rw [Placed.outcomes, Placed.outcomes, ho]; rfl⟩
          | next ha hn hr =>
              obtain ⟨account, haccount, ho⟩ := hc _ ha
              exact ⟨_, .next haccount (ho ▸ hn) hr, by rw [Placed.outcomes, Placed.outcomes, ho]⟩
  | stop hc hf hn =>
      cases hc with
      | absent => cases hn
      | @mk position task task' hc =>
          obtain ⟨o, hto⟩ := Option.isSome_iff_exists.mp hf
          rw [Child.passesNull_mk hto, Option.isNone_iff_eq_none] at hn
          cases ha with
          | stop ha hnone =>
              obtain ⟨account, haccount, ho⟩ := hc _ ha
              exact ⟨_, .stop haccount (ho ▸ hnone), by
                rw [Placed.outcomes, Placed.outcomes, ho]; rfl⟩
          | next ha hn' _ =>
              -- A finished field has one outcome only, which passes the null on here.
              rw [Accounts.outcome_eq ha hto] at hn'
              exact absurd hn hn'
  | next hc hf hn _ ih =>
      cases hc with
      | absent =>
          cases ha with
          | absent ha =>
              obtain ⟨parts, hparts, ho⟩ := ih ha
              exact ⟨parts, .absent hparts, ho⟩
      | @mk position task task' hc =>
          obtain ⟨o, hto⟩ := Option.isSome_iff_exists.mp hf
          rw [Child.passesNull_mk hto] at hn
          cases ha with
          | stop ha hn' =>
              rw [Accounts.outcome_eq ha hto] at hn'
              rw [hn'] at hn
              cases hn
          | next ha hn' hr =>
              obtain ⟨account, haccount, ho⟩ := hc _ ha
              obtain ⟨parts, hparts, hos⟩ := ih hr
              exact ⟨_, .next haccount (ho ▸ hn') hparts, by
                rw [Placed.outcomes, Placed.outcomes, ho, hos]⟩

/-- Fields that are finished after a round have accounts in order. -/
theorem AccountsInOrder.of_finished (scope : Scope ω σ) {R : Task ω σ → Task ω σ → Prop}
    {children children' : List (Child ω σ)} {os : List (PathSegment × Outcome)}
    (h : Child.Serially R children children') (hos : Child.outcomes? children' = some os) :
    ∃ parts, scope.AccountsInOrder log children' parts ∧ Placed.outcomes parts = os := by
  induction h generalizing os with
  | nil => exact ⟨[], .nil, Option.some.inj hos⟩
  | wait _ hf =>
      rw [Child.isFinished_of_mem hos _ List.mem_cons_self] at hf
      cases hf
  | stop hc _ hn =>
      cases hc with
      | absent => cases hn
      | @mk position _ _ _ =>
          obtain ⟨o, os', ht, hr, rfl⟩ := Child.outcomes?_mk_cons.mp hos
          rw [Child.passesNull_mk ht, Option.isNone_iff_eq_none] at hn
          obtain ⟨account, ha, rfl⟩ := scope.exists_accounts ht
          cases hr
          exact ⟨[.mk position account], .stop ha hn, rfl⟩
  | next hc _ hn _ ih =>
      cases hc with
      | absent =>
          obtain ⟨parts, hparts, ho⟩ := ih hos
          exact ⟨parts, .absent hparts, ho⟩
      | @mk position _ _ _ =>
          obtain ⟨o, os', ht, hr, rfl⟩ := Child.outcomes?_mk_cons.mp hos
          rw [Child.passesNull_mk ht] at hn
          obtain ⟨account, ha, rfl⟩ := scope.exists_accounts ht
          obtain ⟨parts, hparts, rfl⟩ := ih hr
          refine ⟨.mk position account :: parts, .next ha ?_ hparts, rfl⟩
          intro hnone
          rw [hnone] at hn
          cases hn

/-- Accounts of an operation go back through a round; a finished one has an account. -/
theorem ensures_workRound (scope : Scope ω σ) (log : List (Event ω)) (levels : Nat)
    (work : Work ω σ) :
    (scope.workRound levels work).Ensures log (fun work' =>
      (∀ account', scope.WorkAccounts log work' account' →
        ∃ account, scope.WorkAccounts log work account ∧ account.outcome = account'.outcome) ∧
      ∀ o, work'.outcome? = some o →
        ∃ account', scope.WorkAccounts log work' account' ∧ account'.outcome = o) := by
  match work with
  | .query task =>
      refine (scope.roundRel_recounts.round (levels + 1) task).bind ?_
      intro task' h
      refine Action.ensures_pure ⟨?_, ?_⟩
      · intro account' ha
        cases ha with
        | query ha =>
            obtain ⟨account, haccount, heq⟩ := h account' ha
            exact ⟨account, .query haccount, heq⟩
      · intro o ho
        obtain ⟨account, ha, heq⟩ := scope.exists_accounts ho
        exact ⟨account, .query ha, heq⟩
  | .mutation site fields =>
      refine (Child.ensures_stepSerial (scope.roundRel_recounts.round levels) fields).bind ?_
      intro fields' h
      refine Action.ensures_pure ⟨?_, ?_⟩
      · intro account' ha
        cases ha with
        | mutation ha =>
            obtain ⟨parts, hparts, heq⟩ := AccountsInOrder.of_serially h ha
            exact ⟨_, .mutation hparts, by rw [Account.outcome, Account.outcome, heq]⟩
      · intro o ho
        simp only [Work.outcome?, Option.map_eq_some_iff] at ho
        obtain ⟨os, hos, rfl⟩ := ho
        obtain ⟨parts, hparts, rfl⟩ := AccountsInOrder.of_finished scope h hos
        exact ⟨_, .mutation hparts, rfl⟩

end Scope

/-- What is known of a request that is not refused. -/
structure Schema.Prepares (schema : Schema ω σ) (request : Request ω) (operation : Operation)
    (root : ObjectType ω σ) (prepared : Prepared ω σ) : Prop where
  selects : request.document.selectOperation request.operationName = .ok operation
  executable : operation.kind ≠ .subscription
  root_eq : schema.root? operation.kind = some root
  binds : schema.coerceVariables operation request.variableValues = .ok prepared.scope.bindings
  scope_eq : prepared.scope =
    ⟨schema, request.document.fragments, prepared.scope.bindings, request.width⟩
  start_eq : prepared.start =
    prepared.scope.operationWork operation.kind ⟨root, request.root, []⟩ operation.selections
  levels_eq : prepared.levels = schema.levels request.depth

theorem Schema.exists_of_prepare {schema : Schema ω σ} {request : Request ω}
    {prepared : Prepared ω σ} (h : schema.prepare request = .ok prepared) :
    ∃ operation root, schema.Prepares request operation root prepared := by
  rw [prepare] at h
  match ho : request.document.selectOperation request.operationName with
  | .error _ => simp [ho, bind, Except.bind] at h
  | .ok operation =>
      simp only [ho, bind, Except.bind] at h
      by_cases hk : operation.kind = .subscription
      · simp [hk, throw, throwThe, MonadExceptOf.throw] at h
      · simp only [hk, if_false] at h
        match hr : schema.root? operation.kind with
        | none => simp [hr, throw, throwThe, MonadExceptOf.throw] at h
        | some root =>
            match hv : schema.coerceVariables operation request.variableValues with
            | .error _ => simp [hr, hv] at h
            | .ok bindings =>
                simp only [hr, hv, pure, Except.pure, Except.ok.injEq] at h
                subst h
                exact ⟨operation, root, ho, hk, hr, hv, rfl, rfl, rfl⟩

theorem Schema.Prepares.prepare_eq {schema : Schema ω σ} {request : Request ω}
    {operation : Operation} {root : ObjectType ω σ} {prepared : Prepared ω σ}
    (hp : schema.Prepares request operation root prepared) : schema.prepare request = .ok prepared := by
  have hparts : prepared = ⟨prepared.scope, prepared.start, prepared.levels⟩ := rfl
  rw [hparts, hp.start_eq, hp.levels_eq, hp.scope_eq]
  simp [prepare, hp.selects, hp.executable, hp.root_eq, hp.binds, bind, Except.bind, pure, Except.pure]

/-- What is known of a request that is refused. -/
inductive Schema.Refuses (schema : Schema ω σ) (request : Request ω) : RequestError → Prop
  | selection {reason : RequestError} :
      request.document.selectOperation request.operationName = .error reason →
      Refuses schema request reason
  | subscription {operation : Operation} :
      request.document.selectOperation request.operationName = .ok operation →
      operation.kind = .subscription → Refuses schema request .subscription
  | undefinedRoot {operation : Operation} :
      request.document.selectOperation request.operationName = .ok operation →
      operation.kind ≠ .subscription → schema.root? operation.kind = none →
      Refuses schema request (.undefinedRoot operation.kind)
  | coercion {operation : Operation} {root : ObjectType ω σ} {reason : RequestError} :
      request.document.selectOperation request.operationName = .ok operation →
      operation.kind ≠ .subscription → schema.root? operation.kind = some root →
      schema.coerceVariables operation request.variableValues = .error reason →
      Refuses schema request reason

theorem Schema.Refuses.prepare_eq {schema : Schema ω σ} {request : Request ω}
    {reason : RequestError} :
    schema.Refuses request reason → schema.prepare request = .error reason := by
  intro h
  cases h with
  | selection hselect =>
      rw [prepare, hselect]
      rfl
  | subscription hselect hkind =>
      simp only [prepare, hselect, hkind, bind, Except.bind, if_true]
      rfl
  | undefinedRoot hselect hkind hroot =>
      simp only [prepare, hselect, hkind, hroot, bind, Except.bind, if_false]
      rfl
  | coercion hselect hkind hroot hbinds =>
      simp only [prepare, hselect, hkind, hroot, hbinds, bind, Except.bind, if_false]

theorem Prepared.runOn_accounts (prepared : Prepared ω σ) {log : List (Event ω)}
    {response : Response} :
    ∀ (limit : Nat) (work : Work ω σ) (state : σ),
      (prepared.runOn limit work state).ending = .responded response →
      (prepared.runOn limit work state).events ⊆ log →
      ∃ account, prepared.scope.WorkAccounts log work account ∧
        response = account.outcome.toResponse
  | 0, _, _, h, _ => by simp [runOn] at h
  | limit + 1, work, state, h, hlog => by
      have step := prepared.scope.ensures_workRound log prepared.levels work state
      simp only [runOn] at h hlog
      match ho : ((prepared.scope.workRound prepared.levels work).run state).1.outcome? with
      | some o =>
          simp only [ho, Ending.responded.injEq] at h
          simp only [ho, Run.events, List.flatten_cons, List.flatten_nil, List.append_nil] at hlog
          obtain ⟨back, done⟩ := step hlog
          obtain ⟨account', ha', rfl⟩ := done o ho
          obtain ⟨account, ha, heq⟩ := back account' ha'
          exact ⟨account, ha, by rw [heq, h]⟩
      | none =>
          simp only [ho, Run.precededBy] at h
          simp only [ho, Run.events, Run.precededBy, List.flatten_cons, List.append_subset] at hlog
          obtain ⟨back, done⟩ := step hlog.1
          obtain ⟨account', ha', rfl⟩ := prepared.runOn_accounts limit _ _ h hlog.2
          obtain ⟨account, ha, heq⟩ := back account' ha'
          exact ⟨account, ha, by rw [heq]⟩

/-- Every response is the outcome of an account of the request, with the answers of the run's log. -/
theorem Schema.execute_accounts {schema : Schema ω σ} {request : Request ω} {state : σ}
    {response : Response} (h : (schema.execute request state).ending = .responded response) :
    ∃ prepared account, schema.prepare request = .ok prepared ∧
      prepared.scope.WorkAccounts (schema.execute request state).events prepared.start account ∧
      response = account.outcome.toResponse := by
  generalize hrun : schema.execute request state = run at h
  rw [execute] at hrun
  match hp : schema.prepare request, hr : request.rounds, hrun with
  | .error _, 0, hrun => simp [← hrun] at h
  | .error _, _ + 1, hrun => simp [← hrun] at h
  | .ok _, 0, hrun => simp [← hrun] at h
  | .ok prepared, limit + 1, hrun =>
      subst hrun
      obtain ⟨account, ha, heq⟩ :=
        prepared.runOn_accounts (limit + 1) prepared.start state h (List.Subset.refl _)
      exact ⟨prepared, account, rfl, ha, heq⟩

/-! ## Small requests -/

/-- A field without alias, arguments, directives and location. -/
def Selection.plain (name : Name) (selections : List Selection) : Selection :=
  .field ⟨none, name, [], [], selections, none⟩

/-- An anonymous operation without variables and directives. -/
def Operation.plain (kind : OperationKind) (selections : List Selection) : Operation where
  kind := kind
  name? := none
  variableDefinitions := []
  directives := []
  selections := selections
  location := none

end GraphQLEngine
