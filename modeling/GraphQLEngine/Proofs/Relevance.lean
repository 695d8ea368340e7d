/-
What an execution depends on.

Of a document, execution reads the selected operation and the fragments that the
operation reaches by spreads, at any depth; of the values that are provided for
variables, those of the variables that the operation declares.  Selections to
which two documents give the same fragments are flattened alike
(`Scope.Flattens.shares`), and the fields that they come to are such selections
again.  So the scopes of two requests that agree in all this simulate each other,
and their runs are the same (`Schema.execute_of_agreeOn`).

Requests that agree may differ in the depths of their documents.  Runs of any one
depth are the same, and so are runs of two depths that suffice, or that were
enough for both runs to end.
-/
import GraphQLEngine.Proofs.InputValues
import GraphQLEngine.Proofs.PrunedExecution
import GraphQLEngine.Proofs.Refusals

namespace GraphQLEngine

variable {ω σ : Type}

/-! ## Runs that are the same -/

theorem Run.InStep.symm {run run' : Run ω σ} (h : run.InStep Eq run') : run'.InStep Eq run :=
  ⟨h.ending.symm, h.state.symm, h.rounds.symm⟩

theorem Run.InStep.trans {run run' run'' : Run ω σ} (h : run.InStep Eq run')
    (h' : run'.InStep Eq run'') : run.InStep Eq run'' :=
  ⟨h.ending.trans h'.ending, h'.state.trans h.state, h'.rounds.trans h.rounds⟩

/-! ## Fragments that two documents share -/

namespace Selection

variable {fragments fragments' fragments'' : OrderedMap Fragment} {name : Name}
  {ss ts : List Selection}

/-- Two documents give the same fragments to all names that selections reach in the first. -/
def Shares (fragments fragments' : OrderedMap Fragment) (ss : List Selection) : Prop :=
  ∀ name, Reaches fragments name ss → fragments'.get? name = fragments.get? name

theorem Shares.mono (h : Shares fragments fragments' ss)
    (hsub : ∀ other, Spreads other ts → Spreads other ss) : Shares fragments fragments' ts :=
  fun name hreach => h name (hreach.mono hsub)

theorem Shares.of_mem (h : Shares fragments fragments' ss) {s : Selection} (hs : s ∈ ss) :
    Shares fragments fragments' [s] :=
  h.mono fun _ hspreads => hspreads.of_mem hs

/-- Selections share what each of them does. -/
theorem Shares.of_forall_mem (h : ∀ s ∈ ss, Shares fragments fragments' [s]) :
    Shares fragments fragments' ss := by
  intro name hreach
  obtain ⟨s, hs, hreach⟩ := hreach.exists_mem
  exact h s hs name hreach

/-- What is shared is shared again within a fragment. -/
theorem Shares.fragment {other : Name} {fragment : Fragment} (h : Shares fragments fragments' ss)
    (hspreads : Spreads other ss) (hget : fragments.get? other = some fragment) :
    Shares fragments fragments' fragment.selections :=
  fun name hreach => h name (.through hspreads hget hreach)

/-- Selections reach the same names in both documents. -/
theorem Shares.reaches_iff (h : Shares fragments fragments' ss) :
    Reaches fragments' name ss ↔ Reaches fragments name ss := by
  constructor
  · intro hreach
    induction hreach with
    | spreads hspreads => exact .spreads hspreads
    | through hspreads hget _ ih =>
        rw [h _ (.spreads hspreads)] at hget
        exact .through hspreads hget (ih (h.fragment hspreads hget))
  · intro hreach
    induction hreach with
    | spreads hspreads => exact .spreads hspreads
    | through hspreads hget _ ih =>
        have hget' := (h _ (.spreads hspreads)).trans hget
        exact .through hspreads hget' (ih (h.fragment hspreads hget))

theorem Shares.symm (h : Shares fragments fragments' ss) : Shares fragments' fragments ss :=
  fun name hreach => (h name (h.reaches_iff.mp hreach)).symm

theorem Shares.trans (h : Shares fragments fragments' ss) (h' : Shares fragments' fragments'' ss) :
    Shares fragments fragments'' ss :=
  fun name hreach => (h' name (h.reaches_iff.mpr hreach)).trans (h name hreach)

end Selection

namespace Scope

open Selection (Shares)

variable {scope : Scope ω σ} {fragments : OrderedMap Fragment} {objectType : Name}

/-- Selections are flattened alike with fragments that they share, and so are those of the fields that
they come to. -/
theorem Flattens.shares {v v' : List Name} {ss : List Selection} {fs : List Field}
    (h : scope.Flattens objectType v ss v' fs)
    (hshares : ∀ s ∈ ss, Shares scope.fragments fragments [s]) :
    Flattens { scope with fragments } objectType v ss v' fs ∧
      ∀ f ∈ fs, Shares scope.fragments fragments [.field f] := by
  have expansion : ∀ {s : FragmentSpread}, Shares scope.fragments fragments [.spread s] →
      expansion? { scope with fragments } objectType s.fragment =
        scope.expansion? objectType s.fragment := by
    intro s hs
    rw [expansion?, expansion?, hs _ (.spreads (.spread rfl))]
    rfl
  induction h with
  | nil => exact ⟨.nil, fun _ hf => by cases hf⟩
  | excluded hincluded _ ih =>
      obtain ⟨hrest, hfields⟩ := ih (List.forall_mem_cons.mp hshares).2
      exact ⟨.excluded hincluded hrest, hfields⟩
  | field hincluded _ ih =>
      obtain ⟨hfield, hshares⟩ := List.forall_mem_cons.mp hshares
      obtain ⟨hrest, hfields⟩ := ih hshares
      exact ⟨.field hincluded hrest, List.forall_mem_cons.mpr ⟨hfield, hfields⟩⟩
  | met hincluded hmet _ ih =>
      obtain ⟨hrest, hfields⟩ := ih (List.forall_mem_cons.mp hshares).2
      exact ⟨.met hincluded hmet hrest, hfields⟩
  | barred hincluded hnew hexpansion _ ih =>
      obtain ⟨hspread, hshares⟩ := List.forall_mem_cons.mp hshares
      obtain ⟨hrest, hfields⟩ := ih hshares
      exact ⟨.barred hincluded hnew ((expansion hspread).trans hexpansion) hrest, hfields⟩
  | spread hincluded hnew hexpansion _ _ ih₁ ih₂ =>
      obtain ⟨hspread, hshares⟩ := List.forall_mem_cons.mp hshares
      obtain ⟨fragment, hget, rfl⟩ := exists_fragment_of_expansion? hexpansion
      have hwithin := hspread.fragment (.spread rfl) hget
      obtain ⟨hinner, hfields⟩ := ih₁ fun s hs => hwithin.of_mem hs
      obtain ⟨hrest, hfields'⟩ := ih₂ hshares
      exact ⟨.spread hincluded hnew ((expansion hspread).trans hexpansion) hinner hrest,
        List.forall_mem_append.mpr ⟨hfields, hfields'⟩⟩
  | foreign hincluded hforeign _ ih =>
      obtain ⟨hrest, hfields⟩ := ih (List.forall_mem_cons.mp hshares).2
      exact ⟨.foreign hincluded hforeign hrest, hfields⟩
  | inline hincluded happlies _ _ ih₁ ih₂ =>
      obtain ⟨hinline, hshares⟩ := List.forall_mem_cons.mp hshares
      have hwithin := fun s hs => hinline.mono fun _ hspreads =>
        Selection.Spreads.inline (Selection.Spreads.of_mem (s := s) hspreads hs)
      obtain ⟨hinner, hfields⟩ := ih₁ hwithin
      obtain ⟨hrest, hfields'⟩ := ih₂ hshares
      exact ⟨.inline hincluded happlies hinner hrest,
        List.forall_mem_append.mpr ⟨hfields, hfields'⟩⟩

end Scope

/-- One and the same group, met in two documents that share all that it reaches. -/
structure FieldGroup.SharedBy (fragments fragments' : OrderedMap Fragment) (group group' : FieldGroup) :
    Prop where
  same : group' = group
  shares : Selection.Shares fragments fragments' group.selections

namespace Scope

open Selection (Shares)

variable {scope : Scope ω σ} {fragments : OrderedMap Fragment}

/-- Selections whose fragments are shared are collected alike. -/
theorem collect_shares (scope : Scope ω σ) (objectType : Name) {ss : List Selection}
    (hshares : Shares scope.fragments fragments ss) :
    List.Forall₂ (FieldGroup.SharedBy scope.fragments fragments) (scope.collect objectType ss)
      (collect { scope with fragments } objectType ss) := by
  obtain ⟨v, fields, hflat, hcollect⟩ := scope.collect_flattens objectType ss
  obtain ⟨v', fields', hflat', hcollect'⟩ :=
    collect_flattens { scope with fragments } objectType ss
  obtain ⟨hflat'', hfields⟩ := hflat.shares fun s hs => hshares.of_mem hs
  obtain ⟨rfl, rfl⟩ := hflat''.unique hflat'
  rw [hcollect', hcollect, List.forall₂_same]
  intro group hgroup
  refine ⟨rfl, .of_forall_mem ?_⟩
  intro s hs
  obtain ⟨f, hf, hs⟩ := List.mem_flatMap.mp hs
  have hmem : f ∈ fields := (mem_of_mem_groupFields hf hgroup).resolve_right (by simp)
  exact (hfields f hmem).mono fun _ hspreads => .field (hspreads.of_mem hs)

/-- Execution cannot tell documents apart by the groups whose fragments they share. -/
theorem simulates_shares (scope : Scope ω σ) (fragments : OrderedMap Fragment) :
    scope.Simulates Eq (FieldGroup.SharedBy scope.fragments fragments) { scope with fragments } where
  schema := rfl
  bindings := rfl
  width := rfl
  key h := by rw [h.same]
  name h := by rw [h.same]
  arguments h := by rw [h.same]
  error h fault path := by rw [h.same]
  collect h objectType := by
    rw [h.same]
    exact scope.collect_shares objectType h.shares

end Scope

/-! ## Variables -/

namespace Schema

variable {schema : Schema ω σ}

/-- Of the values that are provided, binding reads those of the variables that are declared. -/
theorem bindVariables_congr {provided provided' : JsonObject} :
    ∀ {definitions : List VariableDefinition} (bound : JsonObject),
      (∀ d ∈ definitions, OrderedMap.get? provided' d.name = OrderedMap.get? provided d.name) →
      schema.bindVariables provided' definitions bound = schema.bindVariables provided definitions bound
  | [], _, _ => rfl
  | d :: rest, bound, h => by
      obtain ⟨hd, hrest⟩ := List.forall_mem_cons.mp h
      have hinput : variableInput? provided' d = variableInput? provided d := by
        rw [variableInput?, variableInput?, hd]
      rw [bindVariables, bindVariables, hinput]
      cases variableInput? provided d with
      | none => exact bindVariables_congr bound hrest
      | some value =>
          cases hcoerce : schema.coerceInput d.type value with
          | error e => simp only [hcoerce]
          | ok coerced =>
              simp only [hcoerce]
              exact bindVariables_congr _ hrest

/-- Binding leaves the variables alone that are not declared. -/
theorem get?_of_bindVariables {provided bindings : JsonObject} {name : Name} :
    ∀ {definitions : List VariableDefinition} {bound : JsonObject},
      schema.bindVariables provided definitions bound = .ok bindings →
      (∀ d ∈ definitions, d.name ≠ name) →
      OrderedMap.get? bindings name = OrderedMap.get? bound name
  | [], bound, h, _ => by
      cases h
      rfl
  | d :: rest, bound, h, hnames => by
      obtain ⟨hd, hrest⟩ := List.forall_mem_cons.mp hnames
      rcases bindVariables_cons_cases h with ⟨-, h⟩ | ⟨_, _, -, -, h⟩
      · exact get?_of_bindVariables h hrest
      · rw [get?_of_bindVariables h hrest, OrderedMap.get?_insert, if_neg hd]

end Schema

/-! ## Requests that agree -/

/-- Requests that select one operation, and agree in all that it reaches and declares. -/
structure Request.AgreeOn (operation : Operation) (request request' : Request ω) : Prop where
  selects : request.document.selectOperation request.operationName = .ok operation
  selects' : request'.document.selectOperation request'.operationName = .ok operation
  fragments : ∀ name, Selection.Reaches request.document.fragments name operation.selections →
    request'.document.fragments.get? name = request.document.fragments.get? name
  values : ∀ d ∈ operation.variableDefinitions,
    OrderedMap.get? request'.variableValues d.name = OrderedMap.get? request.variableValues d.name
  root : request'.root = request.root
  width : request'.width = request.width
  rounds : request'.rounds = request.rounds

/-- No fragment that an operation reaches reaches itself. -/
def Operation.AcyclicIn (operation : Operation) (document : Document) : Prop :=
  ∀ name fragment, Selection.Reaches document.fragments name operation.selections →
    document.fragments.get? name = some fragment →
    ¬ Selection.Reaches document.fragments name fragment.selections

theorem Operation.AcyclicIn.of_shares {operation : Operation} {document document' : Document}
    (h : operation.AcyclicIn document)
    (hshares : Selection.Shares document.fragments document'.fragments operation.selections) :
    operation.AcyclicIn document' := by
  intro name fragment hname hget hreach
  have hname' := hshares.reaches_iff.mp hname
  have hget' : document.fragments.get? name = some fragment := (hshares name hname').symm.trans hget
  have hwithin : Selection.Shares document.fragments document'.fragments fragment.selections :=
    fun other hother => hshares other (hname'.trans hget' hother)
  exact h name fragment hname' hget' (hwithin.reaches_iff.mp hreach)

namespace Request.AgreeOn

variable {operation : Operation} {request request' request'' : Request ω}

theorem shares (h : request.AgreeOn operation request') :
    Selection.Shares request.document.fragments request'.document.fragments operation.selections :=
  h.fragments

theorem symm (h : request.AgreeOn operation request') : request'.AgreeOn operation request where
  selects := h.selects'
  selects' := h.selects
  fragments := h.shares.symm
  values d hd := (h.values d hd).symm
  root := h.root.symm
  width := h.width.symm
  rounds := h.rounds.symm

theorem trans (h : request.AgreeOn operation request') (h' : request'.AgreeOn operation request'') :
    request.AgreeOn operation request'' where
  selects := h.selects
  selects' := h'.selects'
  fragments := h.shares.trans h'.shares
  values d hd := (h'.values d hd).trans (h.values d hd)
  root := h'.root.trans h.root
  width := h'.width.trans h.width
  rounds := h'.rounds.trans h.rounds

/-- The depths of requests do not matter to what they agree in. -/
theorem withDepths (h : request.AgreeOn operation request') (depth depth' : Nat) :
    AgreeOn operation { request with depth } { request' with depth := depth' } :=
  ⟨h.selects, h.selects', h.fragments, h.values, h.root, h.width, h.rounds⟩

end Request.AgreeOn

namespace Schema

variable {operation : Operation} {request request' : Request ω}

/-- Requests that agree are prepared alike. -/
theorem prepare_of_agreeOn (schema : Schema ω σ) (h : request.AgreeOn operation request')
    (hdepth : request'.depth = request.depth) :
    schema.PreparesAlike Eq
      (FieldGroup.SharedBy request.document.fragments request'.document.fragments) request request' := by
  have hcoerce : schema.coerceVariables operation request'.variableValues =
      schema.coerceVariables operation request.variableValues := bindVariables_congr [] h.values
  refine preparesAlike_of_operation h.selects h.selects' rfl hcoerce h.root hdepth ?_
  intro bindings _ scope scope'
  have hscope : scope' = { scope with fragments := request'.document.fragments } := by
    show Scope.mk _ _ _ request'.width = _
    rw [h.width]
  rw [hscope]
  exact ⟨scope.simulates_shares _, fun objectType => scope.collect_shares objectType h.shares⟩

/-- Requests that agree have the same run, if they have the same depth. -/
theorem execute_alike_of_agreeOn (schema : Schema ω σ) (h : request.AgreeOn operation request')
    (hdepth : request'.depth = request.depth) (state : σ) :
    (schema.execute request state).InStep Eq (schema.execute request' state) :=
  (schema.prepare_of_agreeOn h hdepth).execute Ending.lifts_eq h.rounds state

end Schema

/-! ## Requests without what does not matter -/

theorem OrderedMap.get?_filter {α : Type} (keep : String → Bool) {key : String}
    (hkey : keep key = true) : ∀ m : OrderedMap α,
      OrderedMap.get? (m.filter fun e => keep e.1) key = m.get? key
  | [] => rfl
  | (k, a) :: rest => by
      by_cases hk : k = key
      · subst hk
        rw [List.filter_cons, if_pos hkey, get?, get?, if_pos rfl, if_pos rfl]
      · have hrest := get?_filter keep hkey rest
        rw [List.filter_cons]
        split
        · rw [get?, get?, if_neg hk, if_neg hk, hrest]
        · rw [get?, if_neg hk, hrest]

theorem Selection.total_filter_le (weight : String × Fragment → Nat) (keep : String × Fragment → Bool) :
    ∀ fragments : OrderedMap Fragment, total weight (fragments.filter keep) ≤ total weight fragments
  | [] => Nat.le_refl _
  | e :: rest => by
      have hrest := total_filter_le weight keep rest
      rw [List.filter_cons]
      split
      · exact Nat.add_le_add_left hrest _
      · exact Nat.le_add_left_of_le hrest

open scoped Classical in
/-- A request of which nothing is left but what matters to an operation. -/
noncomputable def Request.restrict (request : Request ω) (operation : Operation) : Request ω :=
  { request with
    document := {
      operations := [operation]
      fragments := request.document.fragments.filter fun e =>
        Selection.Reaches request.document.fragments e.1 operation.selections }
    variableValues := request.variableValues.filter fun e =>
      operation.variableDefinitions.any (fun d => d.name == e.1) }

namespace Request

variable {operation : Operation} {request : Request ω}

theorem agreeOn_restrict
    (hselect : request.document.selectOperation request.operationName = .ok operation) :
    request.AgreeOn operation (request.restrict operation) where
  selects := hselect
  selects' := by
    have hselects := Document.selectOperation_eq_ok_iff.mp hselect
    refine Document.selectOperation_eq_ok_iff.mpr ?_
    show Document.Selects ⟨[operation], _⟩ request.operationName operation
    generalize request.operationName = name? at hselects
    cases hselects with
    | named _ hname _ => exact .named (List.nil_append [operation]).symm hname nofun
    | only _ => exact .only rfl
  fragments name hreach := by
    classical
    exact OrderedMap.get?_filter (fun name => Selection.Reaches request.document.fragments name
      operation.selections) (decide_eq_true hreach) _
  values d hd :=
    OrderedMap.get?_filter (fun name => operation.variableDefinitions.any (fun d => d.name == name))
      (List.any_eq_true.mpr ⟨d, hd, beq_self_eq_true _⟩) _
  root := rfl
  width := rfl
  rounds := rfl

/-- In the restriction there are no other fragments than those that the operation reaches. -/
theorem acyclic_restrict (hacyclic : operation.AcyclicIn request.document)
    (hselect : request.document.selectOperation request.operationName = .ok operation) :
    (request.restrict operation).document.Acyclic := by
  have hshares := (agreeOn_restrict hselect).shares
  intro name fragment hget
  have hname : Selection.Reaches request.document.fragments name operation.selections := by
    simpa [restrict] using (List.mem_filter.mp (OrderedMap.mem_of_get? hget)).2
  exact hacyclic.of_shares hshares name fragment (hshares.reaches_iff.mpr hname) hget

/-- The restriction does not nest any deeper. -/
theorem depthBound_restrict_le
    (hselect : request.document.selectOperation request.operationName = .ok operation) :
    (request.restrict operation).document.depthBound ≤ request.document.depthBound := by
  have hoperation := Document.nestingOf_le_foldr (Document.mem_of_selectOperation hselect)
  have hfragments : Selection.total (fun e => Selection.nestingOf e.2.selections)
      (request.restrict operation).document.fragments ≤
        Selection.total (fun e => Selection.nestingOf e.2.selections) request.document.fragments :=
    Selection.total_filter_le _ _ _
  exact Nat.add_le_add_right (Nat.add_le_add hoperation hfragments) cycleAllowance

end Request

namespace Schema

variable {operation : Operation} {request request' : Request ω}

/-- With more depth than its document has, a request has the same run, if no fragment that its
operation reaches reaches itself. -/
theorem execute_deeper_of_acyclicIn (schema : Schema ω σ)
    (hselect : request.document.selectOperation request.operationName = .ok operation)
    (hacyclic : operation.AcyclicIn request.document) {depth depth' : Nat}
    (hdepth : request.document.depthBound ≤ depth) (hle : depth ≤ depth') (state : σ) :
    (schema.execute { request with depth } state).InStep Eq
      (schema.execute { request with depth := depth' } state) := by
  have hagree := Request.agreeOn_restrict hselect
  have hbound := Nat.le_trans (Request.depthBound_restrict_le hselect) hdepth
  have hsame := schema.execute_deeper { request.restrict operation with depth }
    (Request.acyclic_restrict hacyclic hselect) hbound hle state
  have hrun := schema.execute_alike_of_agreeOn (hagree.withDepths depth depth) rfl state
  have hrun' := schema.execute_alike_of_agreeOn (hagree.withDepths depth' depth') rfl state
  exact hrun.trans (hsame ▸ hrun'.symm)

/-- An execution depends on nothing but the selected operation, the fragments that it reaches and the
variables that it declares.  Requests that agree in these have the same run with any one depth, and
also with two depths that both were enough for their runs to end; or that both suffice for their
documents, if no fragment that the operation reaches reaches itself.  A variable that is not declared
is not bound. -/
theorem execute_of_agreeOn (schema : Schema ω σ) (h : request.AgreeOn operation request') :
    (∀ depth state, (schema.execute { request with depth } state).InStep Eq
      (schema.execute { request' with depth } state)) ∧
    (∀ depth depth' state,
      (schema.execute { request with depth } state).ending ≠ .cancelled →
      (schema.execute { request' with depth := depth' } state).ending ≠ .cancelled →
      (schema.execute { request with depth } state).InStep Eq
        (schema.execute { request' with depth := depth' } state)) ∧
    (operation.AcyclicIn request.document →
      ∀ depth depth', request.document.depthBound ≤ depth → request'.document.depthBound ≤ depth' →
      ∀ state, (schema.execute { request with depth } state).InStep Eq
        (schema.execute { request' with depth := depth' } state)) ∧
    ∀ root prepared, schema.Prepares request operation root prepared →
      ∀ name, (∀ d ∈ operation.variableDefinitions, d.name ≠ name) →
      OrderedMap.get? prepared.scope.bindings name = none := by
  have hdepths : ∀ depth state, (schema.execute { request with depth } state).InStep Eq
      (schema.execute { request' with depth } state) := fun depth state =>
    schema.execute_alike_of_agreeOn (h.withDepths depth depth) rfl state
  refine ⟨hdepths, ?_, ?_, ?_⟩
  · intro depth depth' state hended hended'
    rcases Nat.le_total depth depth' with hle | hle
    · rw [← schema.execute_deeper_of_ended { request with depth } hended hle]
      exact hdepths depth' state
    · rw [← schema.execute_deeper_of_ended { request' with depth := depth' } hended' hle]
      exact hdepths depth state
  · intro hacyclic depth depth' hdepth hdepth' state
    have hacyclic' : operation.AcyclicIn request'.document := hacyclic.of_shares h.shares
    have hdeeper := schema.execute_deeper_of_acyclicIn h.selects hacyclic hdepth
      (Nat.le_max_left depth depth') state
    have hdeeper' := schema.execute_deeper_of_acyclicIn h.selects' hacyclic' hdepth'
      (Nat.le_max_right depth depth') state
    exact (hdeeper.trans (hdepths _ state)).trans hdeeper'.symm
  · intro root prepared hp name hname
    rw [get?_of_bindVariables hp.binds hname]
    rfl

end Schema

/-! ## Two orders -/

/-- Asks for the cost of a book unless the answer is to be brief, and for its price. -/
def orderOperation : Operation :=
  { Operation.plain .query [.plain "book" [.spreadOf "Cost", factualPrice]] with
    name? := some "Order"
    variableDefinitions := [⟨"brief", .named "Boolean", none, none⟩] }

def costFragment : Fragment :=
  ⟨"Cost", "Book", [],
    [.field ⟨none, "price", [], [.onCondition "skip" (.variableRef "brief")], [], some ⟨9, 1⟩⟩], none⟩

/-- A document with a fragment that reaches itself, but not from the order. -/
def orderRequest : Request Unit where
  document := {
    operations := [.plain .query [.spreadOf "Loop"], orderOperation]
    fragments := [
      ("Loop", ⟨"Loop", "Query", [], [.plain "book" [], .spreadOf "Loop"], none⟩),
      ("Cost", costFragment)] }
  operationName := some "Order"
  variableValues := [("other", .bool true)]
  root := .json []

/-- The order on its own, with another value for the variable that it does not declare. -/
def loneOrderRequest : Request Unit where
  document := { operations := [orderOperation], fragments := [("Cost", costFragment)] }
  variableValues := [("other", .bool false)]
  root := .json []

/-- The variable without declaration does not make either execution skip the price. -/
theorem orderRequests_agree :
    orderRequest.AgreeOn orderOperation loneOrderRequest ∧
    orderOperation.AcyclicIn orderRequest.document ∧
    (bookshopSchema.execute { orderRequest with depth := 2 } 0).ending = .responded
      ⟨[{ message := "sold out", locations := [⟨9, 1⟩, ⟨5, 1⟩], path := [.key "book", .key "price"] }],
        some [("book", .obj [("price", .null)])]⟩ ∧
    (bookshopSchema.execute { orderRequest with depth := 2 } 0).InStep Eq
      (bookshopSchema.execute { loneOrderRequest with depth := 3 } 0) ∧
    (bookshopSchema.execute orderRequest 0).InStep Eq (bookshopSchema.execute loneOrderRequest 0) := by
  have hfree : Selection.SpreadFree costFragment.selections := by
    intro name h
    cases h with
    | field h => cases h
    | later h => cases h
  have hbook : ∀ name, Selection.Spreads name [.spreadOf "Cost", factualPrice] → name = "Cost" := by
    intro name h
    cases h with
    | spread heq => exact heq.symm
    | later h =>
        cases h with
        | field h => cases h
        | later h => cases h
  have horder : ∀ name, Selection.Spreads name orderOperation.selections → name = "Cost" := by
    intro name h
    cases h with
    | field h => exact hbook name h
    | later h => cases h
  have hreaches : ∀ name,
      Selection.Reaches orderRequest.document.fragments name orderOperation.selections →
      name = "Cost" := by
    intro name h
    cases h with
    | spreads h => exact horder name h
    | through h hget hreach =>
        obtain rfl := horder _ h
        cases hget
        exact absurd hreach hfree.not_reaches
  have hagree : orderRequest.AgreeOn orderOperation loneOrderRequest := by
    refine ⟨rfl, rfl, ?_, ?_, rfl, rfl, rfl⟩
    · intro name h
      rw [hreaches name h]
      rfl
    · intro d hd
      rw [List.mem_singleton.mp hd]
      rfl
  have hacyclic : orderOperation.AcyclicIn orderRequest.document := by
    intro name fragment hname hget
    obtain rfl := hreaches name hname
    cases hget
    exact hfree.not_reaches
  have hended : (bookshopSchema.execute { orderRequest with depth := 2 } 0).ending = .responded
      ⟨[{ message := "sold out", locations := [⟨9, 1⟩, ⟨5, 1⟩], path := [.key "book", .key "price"] }],
        some [("book", .obj [("price", .null)])]⟩ := by
    decide +kernel
  have hended' : (bookshopSchema.execute { loneOrderRequest with depth := 3 } 0).ending ≠ .cancelled := by
    decide +kernel
  obtain ⟨-, hends, hsuffices, -⟩ := bookshopSchema.execute_of_agreeOn hagree
  refine ⟨hagree, hacyclic, hended, hends 2 3 0 ?_ hended', hsuffices hacyclic _ _ ?_ ?_ 0⟩
  · rw [hended]
    exact nofun
  · exact Nat.le_refl _
  · exact Nat.le_refl _

end GraphQLEngine
