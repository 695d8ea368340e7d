/-
The directives `skip` and `include` mean no more than that selections are left
out.

The scopes of a document and of the pruned one simulate each other: to a group
corresponds the pruned group, which has the same fields with the same locations
(`Scope.simulates_pruned`).  So the runs of the two documents go on in step and
end with the same response (`Schema.execute_pruned`).

Nothing is assumed of fragments, which may form cycles.  The depth of a request
matters only to these.
-/
import GraphQLEngine.Proofs.InlinedExecution
import GraphQLEngine.Proofs.Pruning

namespace GraphQLEngine

variable {ω σ : Type}

/-- Execution cannot tell a group from the pruned one. -/
theorem Scope.simulates_pruned (scope : Scope ω σ) :
    scope.Simulates Eq (fun group group' => group' = group.pruned scope.bindings) scope.pruned where
  schema := rfl
  bindings := rfl
  width := rfl
  key := by
    rintro group _ rfl
    rfl
  name := by
    rintro group _ rfl
    rfl
  arguments := by
    rintro group _ rfl
    rfl
  error := by
    rintro group _ rfl fault path
    rw [FieldFault.toError, FieldFault.toError, FieldGroup.locations_pruned]
  collect := by
    rintro group _ rfl objectType
    rw [FieldGroup.selections_pruned, collect_pruned, List.forall₂_map_right_iff, List.forall₂_same]
    exact fun _ _ => rfl

/-- The operation that was chosen is chosen from the pruned document, pruned. -/
theorem Document.selectOperation_pruned {document : Document} {name? : Option Name}
    {operation : Operation} (h : document.selectOperation name? = .ok operation)
    (bindings : JsonObject) :
    (document.pruned operation bindings).selectOperation name? = .ok (operation.pruned bindings) := by
  have hname : ∀ op : Operation,
      (if op.name? = operation.name? then op.pruned bindings else op).name? = op.name? := by
    intro op
    split
    · rfl
    · rfl
  rw [pruned, document.selectOperation_map hname, h, Except.map, if_pos rfl]

namespace Schema

/-- Requests for a document and for the pruned one are prepared alike. -/
theorem prepare_pruned (schema : Schema ω σ) (request : Request ω) {operation : Operation}
    {bindings : JsonObject}
    (hselect : request.document.selectOperation request.operationName = .ok operation)
    (hbinds : schema.coerceVariables operation request.variableValues = .ok bindings) :
    schema.PreparesAlike Eq (fun group group' => group' = group.pruned bindings) request
      { request with document := request.document.pruned operation bindings } := by
  refine preparesAlike_of_operation hselect (Document.selectOperation_pruned hselect bindings)
    rfl rfl rfl rfl ?_
  intro bindings' hbinds' scope scope'
  obtain rfl : bindings = bindings' := Except.ok.inj (hbinds.symm.trans hbinds')
  refine ⟨scope.simulates_pruned, ?_⟩
  intro objectType
  have hcollect : scope'.collect objectType (operation.pruned bindings).selections =
      (scope.collect objectType operation.selections).map (FieldGroup.pruned bindings) :=
    scope.collect_pruned objectType operation.selections
  rw [hcollect, List.forall₂_map_right_iff, List.forall₂_same]
  exact fun _ _ => rfl

/-- Conditions can be decided beforehand: without the selections that are skipped or not included, and
without the directives that say so, the same resolvers are called in the same rounds, and the run
ends in the same way.  That is so with any one depth, and also with two depths that are no less than
the bound of the pruned document, if that has no cycle.  A condition without a truth value deletes
nothing. -/
theorem execute_pruned (schema : Schema ω σ) {request : Request ω} {operation : Operation}
    {bindings : JsonObject}
    (hselect : request.document.selectOperation request.operationName = .ok operation)
    (hbinds : schema.coerceVariables operation request.variableValues = .ok bindings) :
    (∀ state, (schema.execute request state).InStep Eq
      (schema.execute { request with document := request.document.pruned operation bindings }
        state)) ∧
    ((request.document.pruned operation bindings).depthBound ≤ request.document.depthBound ∧
      ((request.document.pruned operation bindings).Acyclic →
        ∀ depth depth', (request.document.pruned operation bindings).depthBound ≤ depth →
          (request.document.pruned operation bindings).depthBound ≤ depth' →
          ∀ state, (schema.execute { request with depth } state).InStep Eq
            (schema.execute
              { request with
                document := request.document.pruned operation bindings
                depth := depth' } state))) ∧
    ∀ (s : Selection) (name : Name), s.Undecided bindings name →
      ¬ s.Asserts bindings name true ∧ ¬ s.Asserts bindings name false := by
  refine ⟨?_, ⟨Document.depthBound_pruned_le _ _ _, ?_⟩, ?_⟩
  · intro state
    exact (schema.prepare_pruned request hselect hbinds).execute Ending.lifts_eq rfl state
  · intro hacyclic depth depth' hdepth hdepth' state
    let bound : Request ω :=
      { request with
        document := request.document.pruned operation bindings
        depth := (request.document.pruned operation bindings).depthBound }
    have hdeep := schema.execute_deeper bound hacyclic (Nat.le_refl _) hdepth state
    have hdeep' := schema.execute_deeper bound hacyclic (Nat.le_refl _) hdepth' state
    rw [hdeep', ← hdeep]
    exact (schema.prepare_pruned { request with depth } hselect hbinds).execute Ending.lifts_eq rfl state
  · intro s name hundecided
    exact ⟨hundecided.not_asserts true, hundecided.not_asserts false⟩

end Schema

/-! ## A shorter order -/

/-- A directive with a condition. -/
def Directive.onCondition (name : Name) (condition : Literal) : Directive :=
  ⟨name, [⟨"if", condition⟩]⟩

/-- Asks for the cost of a book unless the answer is to be brief, for its facts if it is, and then for
the cost again. -/
def briefOperation : Operation :=
  { Operation.plain .query [.plain "book" [
      .spread ⟨"Cost", [.onCondition "skip" (.variableRef "brief")], none⟩,
      .inlineFragment ⟨none, [.onCondition "include" (.boolean false)], [.plain "title" []], none⟩,
      .spread ⟨"Facts", [.onCondition "include" (.variableRef "brief")], none⟩,
      .spreadOf "Cost"]] with
    variableDefinitions := [⟨"brief", .named "Boolean", none, none⟩] }

/-- The price of a book, unless it is left out for a variable that no operation declares. -/
def factualPrice : Selection :=
  .field ⟨none, "price", [], [.onCondition "skip" (.variableRef "other")], [], some ⟨5, 1⟩⟩

def briefRequest : Request Unit where
  document := {
    operations := [briefOperation]
    fragments := [
      ("Facts", ⟨"Facts", "Book", [], [factualPrice, .plain "title" []], none⟩),
      ("Cost", ⟨"Cost", "Book", [], [.leafOnLine 9 "price"], none⟩)] }
  variableValues := [("brief", .bool true)]
  root := .json []
  depth := 2
  rounds := 1

example : Selection.pruneAll [("brief", .bool true)] briefOperation.selections =
    [.plain "book" [.spreadOf "Facts", .spreadOf "Cost"]] :=
  rfl

/-- The cost is not met where it is skipped, and so it is expanded at the end. -/
theorem briefRequest_pruned :
    briefRequest.document.selectOperation none = .ok briefOperation ∧
    bookshopSchema.coerceVariables briefOperation briefRequest.variableValues =
      .ok [("brief", .bool true)] ∧
    (bookshopSchema.execute briefRequest 0).ending =
      .responded (bookshopResponse [⟨5, 1⟩, ⟨9, 1⟩]) ∧
    (bookshopSchema.execute briefRequest 0).InStep Eq
      (bookshopSchema.execute
        { briefRequest with
          document := briefRequest.document.pruned briefOperation [("brief", .bool true)] } 0) ∧
    factualPrice.Undecided [("brief", .bool true)] "skip" ∧
    ¬ factualPrice.Asserts [("brief", .bool true)] "skip" true := by
  have hselect : briefRequest.document.selectOperation none = .ok briefOperation := rfl
  have hbinds : bookshopSchema.coerceVariables briefOperation briefRequest.variableValues =
      .ok [("brief", .bool true)] := by rfl
  have hundecided : factualPrice.Undecided [("brief", .bool true)] "skip" :=
    .unbound rfl rfl rfl
  have hpruned := bookshopSchema.execute_pruned hselect hbinds
  refine ⟨hselect, hbinds, ?_, hpruned.1 0, hundecided, (hpruned.2.2 _ _ hundecided).1⟩
  decide +kernel

end GraphQLEngine
