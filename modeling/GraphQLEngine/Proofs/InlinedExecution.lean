/-
Inlining fragments preserves what a request means.

The scopes of an acyclic document and of the document with its fragments
inlined simulate each other: corresponding groups are those whose fields repeat
each other (`Scope.simulates_withFragments`).  So the requests are refused
alike, or their runs go on in step (`Schema.execute_inlined`).  The two
documents need not have the same depth, as no depth matters beyond their own.
-/
import GraphQLEngine.Proofs.Account
import GraphQLEngine.Proofs.Counterparts
import GraphQLEngine.Proofs.DepthIndependence
import GraphQLEngine.Proofs.InlinedFields

namespace GraphQLEngine

variable {ω σ : Type} {document : Document}

/-- Execution cannot tell a group from one that repeats its fields. -/
theorem Scope.simulates_withFragments {scope : Scope ω σ}
    (hfragments : scope.fragments = document.fragments) (hacyclic : document.Acyclic)
    (fragments : OrderedMap Fragment) :
    scope.Simulates ResponseError.Alike (FieldGroup.Retells document.inlineField)
      { scope with fragments } where
  schema := rfl
  bindings := rfl
  width := rfl
  key h := h.key
  name h := by
    rw [h.first]
    rfl
  arguments h := by
    rw [h.first]
    rfl
  error h fault path := by
    have hlocation : ∀ field : Field, (document.inlineField field).location = field.location :=
      fun _ => rfl
    exact ⟨rfl, rfl, rfl, fun _ => h.mem_locations_iff hlocation⟩
  collect h objectType := (Inlines.of_retells h).collect hfragments hacyclic objectType fragments

namespace Document

/-- The operation that is chosen has its fragments inlined. -/
theorem selectOperation_inlined (document : Document) (name? : Option Name) :
    document.inlined.selectOperation name? =
      (document.selectOperation name?).map document.inlineOperation :=
  document.selectOperation_map (f := document.inlineOperation) (fun _ => rfl) _ name?

/-- No fragments are spread in the inlined document, so they form no cycle. -/
theorem acyclic_inlined (document : Document) : document.inlined.Acyclic := by
  intro name fragment hget
  obtain ⟨e, _, heq⟩ := List.mem_map.mp (OrderedMap.mem_of_get? hget)
  cases heq
  exact (document.spreadFree_inline e.2.selections).not_reaches

end Document

namespace Schema

variable (schema : Schema ω σ) {request : Request ω}

/-- A request is refused in the same way once fragments are inlined, or its work is alike. -/
theorem prepare_inlined (hacyclic : request.document.Acyclic) :
    schema.PreparesAlike ResponseError.Alike (FieldGroup.Retells request.document.inlineField) request
      { request with document := request.document.inlined } := by
  have hselect := request.document.selectOperation_inlined request.operationName
  match hop : request.document.selectOperation request.operationName with
  | .error reason =>
      rw [hop] at hselect
      have hrefused : schema.Refuses request reason := .selection hop
      have hrefused' : schema.Refuses { request with document := request.document.inlined } reason :=
        .selection hselect
      exact .refused hrefused.prepare_eq hrefused'.prepare_eq
  | .ok operation =>
      rw [hop] at hselect
      refine preparesAlike_of_operation hop hselect rfl rfl rfl rfl ?_
      intro bindings _ scope scope'
      refine ⟨Scope.simulates_withFragments rfl hacyclic _, ?_⟩
      intro objectType
      exact (scope.inlines_inline request.document operation.selections).collect
        rfl hacyclic objectType request.document.inlined.fragments

/-- With the same depth, the runs of a document and of the inlined one go on in step. -/
theorem execute_alike_inlined (request : Request ω) (hacyclic : request.document.Acyclic)
    (state : σ) :
    (schema.execute request state).Alike
      (schema.execute { request with document := request.document.inlined } state) := by
  have h := (schema.prepare_inlined hacyclic).execute Ending.lifts_alike rfl state
  exact ⟨h.ending, h.state, h.rounds⟩

/-- Fragments can be inlined: the request is refused for the same reason, or the same resolvers are
called in the same rounds and the run ends alike.  That is so with any one depth, and also if each
document has a depth of its own that is no less than its bound. -/
theorem execute_inlined (hacyclic : request.document.Acyclic) (state : σ) :
    (schema.execute request state).Alike
      (schema.execute { request with document := request.document.inlined } state) ∧
    ∀ depth depth', request.document.depthBound ≤ depth →
      request.document.inlined.depthBound ≤ depth' →
      (schema.execute { request with depth } state).Alike
        (schema.execute { request with document := request.document.inlined, depth := depth' }
          state) := by
  refine ⟨schema.execute_alike_inlined request hacyclic state, ?_⟩
  intro depth depth' hdepth hdepth'
  have hdeeper := schema.execute_deeper { request with depth } hacyclic hdepth
    (Nat.le_max_left depth depth') state
  have hdeeper' := schema.execute_deeper
    { request with document := request.document.inlined, depth := depth' }
    request.document.acyclic_inlined hdepth' (Nat.le_max_right depth depth') state
  rw [← hdeeper, ← hdeeper']
  exact schema.execute_alike_inlined { request with depth := max depth depth' } hacyclic state

end Schema

/-! ## A bookshop -/

def bookshopQuery : ObjectType Unit Nat where
  name := "Query"
  fields := [
    ("book", {
      name := "book", type := .named "Book"
      resolver? := some ⟨none, fun _ calls =>
        (.ok (.object (.json [("title", .str "Emma")])), calls + 1)⟩ })]

def bookshopBook : ObjectType Unit Nat where
  name := "Book"
  fields := [
    ("title", { name := "title", type := .named "String" }),
    ("price", {
      name := "price", type := .named "Int"
      resolver? := some ⟨none, fun _ calls => (.error { message := "sold out" }, calls + 1)⟩ })]

/-- A bookshop that counts how often it is asked. -/
def bookshopSchema : Schema Unit Nat where
  queryType := "Query"
  mutationType := none
  types := BuiltIn.scalars.map (fun t => (t.name, .scalar t)) ++
    [("Query", .object bookshopQuery), ("Book", .object bookshopBook)]
  possible := []

def Selection.spreadOf (name : Name) : Selection :=
  .spread ⟨name, [], none⟩

/-- A field on its own line. -/
def Selection.leafOnLine (line : Nat) (name : Name) : Selection :=
  .field ⟨none, name, [], [], [], some ⟨line, 1⟩⟩

/-- Asks for the cost of a book, for its facts, of which the cost is one, and for no fragment. -/
def bookshopRequest : Request Unit where
  document := {
    operations := [.plain .query
      [.plain "book" [.spreadOf "Cost", .spreadOf "Facts", .spreadOf "Missing"]]]
    fragments := [
      ("Facts", ⟨"Facts", "Book", [], [.leafOnLine 5 "title", .spreadOf "Cost"], none⟩),
      ("Cost", ⟨"Cost", "Book", [], [.leafOnLine 9 "price"], none⟩)] }
  root := .json []
  depth := 2
  rounds := 1

def bookshopResponse (locations : List Location) : Response where
  errors := [{ message := "sold out", locations, path := [.key "book", .key "price"] }]
  data := some [("book", .obj [("price", .null), ("title", .str "Emma")])]

theorem bookshopRequest_acyclic : bookshopRequest.document.Acyclic := by
  have hleaf : ∀ line name, Selection.SpreadFree [.leafOnLine line name] := by
    intro line name other h
    cases h with
    | field h => cases h
    | later h => cases h
  have hfacts : ∀ other, Selection.Spreads other [.leafOnLine 5 "title", .spreadOf "Cost"] →
      other = "Cost" := by
    intro other h
    cases h with
    | field h => cases h
    | later h =>
        cases h with
        | spread heq => exact heq.symm
        | later h => cases h
  intro name fragment hget hreach
  have hentry := OrderedMap.mem_of_get? hget
  simp only [bookshopRequest, List.mem_cons, List.not_mem_nil, or_false, Prod.mk.injEq] at hentry
  rcases hentry with ⟨rfl, rfl⟩ | ⟨rfl, rfl⟩
  · cases hreach with
    | spreads h => exact absurd (hfacts _ h) (by decide)
    | through h hother hreach =>
        obtain rfl := hfacts _ h
        cases hother
        exact (hleaf 9 "price").not_reaches hreach
  · exact (hleaf 9 "price").not_reaches hreach

/-- Inlining makes the error name the line of the price twice, and changes nothing else. -/
theorem bookshopRequest_inlined :
    bookshopRequest.document.Acyclic ∧
    (bookshopSchema.execute bookshopRequest 0).ending = .responded (bookshopResponse [⟨9, 1⟩]) ∧
    (bookshopSchema.execute { bookshopRequest with document := bookshopRequest.document.inlined }
      0).ending = .responded (bookshopResponse [⟨9, 1⟩, ⟨9, 1⟩]) ∧
    (bookshopSchema.execute bookshopRequest 0).state = 2 ∧
    (bookshopSchema.execute bookshopRequest 0).Alike
      (bookshopSchema.execute { bookshopRequest with document := bookshopRequest.document.inlined } 0) ∧
    (bookshopSchema.execute
        { bookshopRequest with depth := bookshopRequest.document.depthBound } 0).Alike
      (bookshopSchema.execute
        { bookshopRequest with
          document := bookshopRequest.document.inlined
          depth := bookshopRequest.document.inlined.depthBound } 0) := by
  obtain ⟨halike, howns⟩ := bookshopSchema.execute_inlined bookshopRequest_acyclic 0
  refine ⟨bookshopRequest_acyclic, ?_, ?_, ?_, halike, howns _ _ (Nat.le_refl _) (Nat.le_refl _)⟩
  · decide +kernel
  · decide +kernel
  · decide +kernel

end GraphQLEngine
