/-
The errors of a response: one at each failing position, in the order of the
response.

`Account.Precedes` is that order.  Of two paths, the one comes first that has
the smaller index where they part, or there the key that was collected first
for the object.  The main statement, `Schema.execute_ordersErrors`, is that the
errors of every response follow this order strictly, that none stands at or
below another, and that each has the locations of the fields that were merged
into its innermost field.

Which positions have errors, and what becomes of the data there, is the matter
of Proofs/NullPropagation.
-/
import GraphQLEngine.Proofs.Positions
import GraphQLEngine.Schema.Draft

namespace GraphQLEngine

variable {ω σ : Type}

/-! ## The order of paths -/

/-- The first path comes before the second one in the order of the response. -/
inductive Account.Precedes (scope : Scope ω σ) (selections : List Selection)
    (account : Account ω σ) : Path → Path → Prop
  | index {common rest rest' : Path} {i j : Nat} :
      i < j → Precedes scope selections account (common ++ .index i :: rest) (common ++ .index j :: rest')
  /-- The keys are those of two fields of an object, in the order of their first collection. -/
  | key {opened : Opened ω σ} {k k' : Name} {rest rest' : Path} :
      account.Opens scope selections opened → [k, k'].Sublist (groupKeys (opened.groups scope)) →
      Precedes scope selections account
        (opened.site.path ++ .key k :: rest) (opened.site.path ++ .key k' :: rest')

/-- An error of a field of an object, or of an item of its list at any depth, with the locations of
the fields that were merged there. -/
def Opened.Reports (scope : Scope ω σ) (opened : Opened ω σ) (error : ResponseError) : Prop :=
  ∃ group ∈ opened.groups scope, ∃ indices : List Nat,
    error.path = opened.site.fieldPath group ++ indices.map .index ∧
      error.locations = group.locations

/-- Errors as the response to an account has them. -/
structure Account.OrdersErrors (scope : Scope ω σ) (selections : List Selection)
    (account : Account ω σ) (errors : List ResponseError) : Prop where
  path_ne_nil : ∀ e ∈ errors, e.path ≠ []
  /-- No error stands at the place of another one, or below. -/
  apart : errors.Pairwise (fun e e' => e.path.Apart e'.path)
  ordered : errors.Pairwise (fun e e' => account.Precedes scope selections e.path e'.path)
  /-- The innermost field of an error's path is a field of an object that was completed. -/
  located : ∀ e ∈ errors, ∃ opened, account.Opens scope selections opened ∧ opened.Reports scope e

/-- Two members that follow each other in a mapped list come from members that do so. -/
theorem pair_sublist_of_map {α β : Type} {f : α → β} {l : List α} {b b' : β}
    (h : [b, b'].Sublist (l.map f)) : ∃ a a', [a, a'].Sublist l ∧ f a = b ∧ f a' = b' := by
  obtain ⟨pair, hpair, heq⟩ := List.sublist_map_iff.mp h
  match pair, heq with
  | [a, a'], heq =>
      simp only [List.map_cons, List.map_nil, List.cons.injEq, and_true] at heq
      exact ⟨a, a', hpair, heq.1.symm, heq.2.symm⟩

namespace Account

variable {scope : Scope ω σ} {selections selections' : List Selection} {locations : List Location}
  {path : Path} {account account' : Account ω σ} {shape : Shape ω σ} {parts : List (Placed ω σ)}
  {site : Site ω σ}

/-- Two paths in order are apart. -/
theorem Precedes.apart {p p' : Path} (h : account.Precedes scope selections p p') : p.Apart p' := by
  cases h with
  | index hlt =>
      have hne := fun heq => Nat.ne_of_lt hlt (PathSegment.index.inj heq)
      exact ⟨Path.not_prefix_of_ne hne, Path.not_prefix_of_ne (Ne.symm hne)⟩
  | @key opened k k' _ _ _ hkeys =>
      have hnodup : [k, k'].Nodup := (scope.nodup_groupKeys_collect _ _).sublist hkeys
      have hne := fun heq => (by simpa using hnodup : k ≠ k') (PathSegment.key.inj heq)
      exact ⟨Path.not_prefix_of_ne hne, Path.not_prefix_of_ne (Ne.symm hne)⟩

/-- The order within a part is the order within the whole. -/
theorem Precedes.mono
    (hsub : ∀ opened, account.Opens scope selections opened → account'.Opens scope selections' opened)
    {p p' : Path} (h : account.Precedes scope selections p p') :
    account'.Precedes scope selections' p p' := by
  cases h with
  | index hlt => exact .index hlt
  | key ho hkeys => exact .key (hsub _ ho) hkeys

theorem errors_branch : (Account.branch shape parts).outcome.errors =
    parts.flatMap (fun part => part.account.outcome.errors) := by
  simp [outcome, Shape.join, Placed.outcomes_eq_map, Placed.settled, List.flatMap_map]

theorem mem_errors_parts {e : ResponseError} : e ∈ (Account.branch shape parts).outcome.errors ↔
    ∃ part ∈ parts, e ∈ part.account.outcome.errors := by
  rw [errors_branch, List.mem_flatMap]

namespace Exact

/-- Errors stand at the place of an exact account, or below. -/
theorem prefix_of_error (h : account.Exact scope selections locations path) :
    ∀ e ∈ account.outcome.errors, path <+: e.path := by
  induction h with
  | value _ => intro e he; cases he
  | failed _ hpath =>
      intro e he
      cases List.mem_singleton.mp he
      exact hpath ▸ List.prefix_rfl
  | answered _ ih => exact ih
  | object _ hsegments _ ih =>
      intro e he
      obtain ⟨part, hpart, he⟩ := mem_errors_parts.mp he
      obtain ⟨group, hgroup, hkey⟩ := Placed.exists_group (by rw [hsegments]) hpart
      exact (List.prefix_append _ _).trans (ih part hpart group hgroup hkey e he)
  | list _ _ ih =>
      intro e he
      obtain ⟨part, hpart, he⟩ := mem_errors_parts.mp he
      exact (List.prefix_append _ _).trans (ih part hpart e he)

/-- An error of a part of an object stands at the part's field, or below. -/
theorem exists_error_path
    (h : (Account.branch (.object site) parts).Exact scope selections locations path)
    {part : Placed ω σ} (hpart : part ∈ parts) {key : Name} (hkey : part.segment = .key key)
    {e : ResponseError} (he : e ∈ part.account.outcome.errors) :
    ∃ rest, e.path = site.path ++ .key key :: rest := by
  obtain ⟨group, hgroup, hkey'⟩ := Placed.exists_group h.sublist hpart
  obtain ⟨rest, hrest⟩ := (h.field hpart hgroup hkey').prefix_of_error e he
  refine ⟨rest, ?_⟩
  rw [← hrest, Site.fieldPath, ← hkey', hkey, List.append_assoc]
  rfl

/-- The errors of an exact account are in the order of the response. -/
theorem ordered (h : account.Exact scope selections locations path) :
    account.outcome.errors.Pairwise
      (fun e e' => account.Precedes scope selections e.path e'.path) := by
  induction h with
  | value _ => exact .nil
  | failed _ _ => exact List.pairwise_singleton _ _
  | answered _ ih => exact ih.imp (Precedes.mono fun _ ho => .answered ho)
  | @object selections locations site groups parts hsub hsegments hparts ih =>
      have hobject : (Account.branch (.object site) parts).Exact scope selections locations site.path :=
        .object hsub hsegments hparts
      rw [errors_branch, List.pairwise_flatMap]
      constructor
      · intro part hpart
        obtain ⟨group, hgroup, hkey⟩ := Placed.exists_group (by rw [hsegments]) hpart
        exact (ih part hpart group hgroup hkey).imp
          (Precedes.mono fun _ ho => .field hpart (hsub.subset hgroup) hkey ho)
      · -- The parts of the object follow the order in which the keys were collected.
        refine List.pairwise_iff_forall_sublist.mpr ?_
        intro part part' hpair e he e' he'
        obtain ⟨k, k', hkeys, hk, hk'⟩ :=
          pair_sublist_of_map ((hpair.map Placed.segment).trans hobject.sublist)
        have hmem := hpair.subset
        obtain ⟨rest, hrest⟩ :=
          hobject.exists_error_path (hmem (List.mem_cons_self)) hk.symm he
        obtain ⟨rest', hrest'⟩ :=
          hobject.exists_error_path (hmem (List.mem_cons_of_mem _ List.mem_cons_self)) hk'.symm he'
        rw [hrest, hrest']
        exact .key .here hkeys
  | @list selections locations path parts hsegments hparts ih =>
      rw [errors_branch, List.pairwise_flatMap]
      constructor
      · intro part hpart
        exact (ih part hpart).imp (Precedes.mono fun _ ho => .item hpart ho)
      · refine List.pairwise_iff_forall_sublist.mpr ?_
        intro part part' hpair e he e' he'
        have hsub := hsegments ▸ hpair.map Placed.segment
        obtain ⟨i, j, hij, hi, hj⟩ := pair_sublist_of_map hsub
        have hlt : i < j := List.pairwise_iff_forall_sublist.mp List.pairwise_lt_range hij
        have hmem := hpair.subset
        obtain ⟨rest, hrest⟩ := (hparts part (hmem List.mem_cons_self)).prefix_of_error e he
        obtain ⟨rest', hrest'⟩ := (hparts part'
          (hmem (List.mem_cons_of_mem _ List.mem_cons_self))).prefix_of_error e' he'
        rw [← hrest, ← hrest', ← hi, ← hj, List.append_assoc, List.append_assoc]
        exact .index hlt

/-- The errors of an exact account belong to its own field, or to one of an object that it opens. -/
theorem located (h : account.Exact scope selections locations path) :
    ∀ e ∈ account.outcome.errors,
      (∃ indices : List Nat, e.path = path ++ indices.map .index ∧ e.locations = locations) ∨
      ∃ opened, account.Opens scope selections opened ∧ opened.Reports scope e := by
  induction h with
  | value _ => intro e he; cases he
  | failed hlocations hpath =>
      intro e he
      cases List.mem_singleton.mp he
      exact .inl ⟨[], by rw [hpath, List.map_nil, List.append_nil], hlocations⟩
  | answered _ ih =>
      intro e he
      refine (ih e he).imp id ?_
      rintro ⟨opened, ho, hreports⟩
      exact ⟨opened, .answered ho, hreports⟩
  | object hsub hsegments _ ih =>
      intro e he
      obtain ⟨part, hpart, he⟩ := mem_errors_parts.mp he
      obtain ⟨group, hgroup, hkey⟩ := Placed.exists_group (by rw [hsegments]) hpart
      rcases ih part hpart group hgroup hkey e he with ⟨indices, hpath, hlocations⟩ | ⟨opened, ho, hreports⟩
      · exact .inr ⟨_, .here, group, hsub.subset hgroup, indices, hpath, hlocations⟩
      · exact .inr ⟨opened, .field hpart (hsub.subset hgroup) hkey ho, hreports⟩
  | list hsegments _ ih =>
      intro e he
      obtain ⟨part, hpart, he⟩ := mem_errors_parts.mp he
      rcases ih part hpart e he with ⟨indices, hpath, hlocations⟩ | ⟨opened, ho, hreports⟩
      · obtain ⟨i, _, hi⟩ := List.mem_map.mp (hsegments ▸ List.mem_map_of_mem hpart)
        refine .inl ⟨i :: indices, ?_, hlocations⟩
        rw [hpath, ← hi, List.append_assoc]
        rfl
      · exact .inr ⟨opened, .item hpart ho, hreports⟩

/-- The errors of an exact object stand at different places, in order, and in fields. -/
theorem ordersErrors
    (h : (Account.branch (.object site) parts).Exact scope selections locations path) :
    (Account.branch (.object site) parts).OrdersErrors scope selections
      (Account.branch (.object site) parts).outcome.errors where
  apart := h.ordered.imp Precedes.apart
  ordered := h.ordered
  path_ne_nil e he := by
    obtain ⟨part, hpart, he⟩ := mem_errors_parts.mp he
    obtain ⟨group, _, hkey⟩ := Placed.exists_group h.sublist hpart
    obtain ⟨rest, hrest⟩ := h.exists_error_path hpart hkey he
    simp [hrest]
  located e he := by
    obtain ⟨part, hpart, he⟩ := mem_errors_parts.mp he
    obtain ⟨group, hgroup, hkey⟩ := Placed.exists_group h.sublist hpart
    rcases (h.field hpart hgroup hkey).located e he with ⟨indices, hpath, hlocations⟩ | ⟨opened, ho, hreports⟩
    · exact ⟨_, .here, group, hgroup, indices, hpath, hlocations⟩
    · exact ⟨opened, .field hpart hgroup hkey ho, hreports⟩

end Exact

end Account

/-! ## Errors of responses -/

/-- The errors of a response stand at different places, in the order of the response, each with the
locations of its innermost field. -/
theorem Schema.execute_ordersErrors {schema : Schema ω σ} {request : Request ω} {state : σ}
    {response : Response} (h : (schema.execute request state).ending = .responded response) :
    ∃ operation root prepared account, schema.Prepares request operation root prepared ∧
      prepared.scope.WorkAccounts (schema.execute request state).events prepared.start account ∧
      response = account.outcome.toResponse ∧
      account.OrdersErrors prepared.scope operation.selections response.errors := by
  obtain ⟨prepared, account, hprepare, ha, rfl⟩ := schema.execute_accounts h
  obtain ⟨operation, root, hp⟩ := schema.exists_of_prepare hprepare
  refine ⟨operation, root, prepared, account, hp, ha, rfl, ?_⟩
  rw [hp.start_eq] at ha
  obtain ⟨parts, rfl, hexact⟩ := ha.exact
  exact hexact.ordersErrors

/-- Stations with readings that have to be numbers. -/
def stationDraft : SchemaDraft Unit Unit where
  query := some "Query"
  types := [
    .object (ObjectType.addField { name := "Query" }
      { name := "stations", type := .list (.named "Station") }),
    .object (ObjectType.addField
      (ObjectType.addField { name := "Station" } { name := "id", type := .named "Int" })
      { name := "readings", type := .list (.nonNullNamed "Int") })]

/-- A field on its own line of the document. -/
def Selection.onLine (line : Nat) (name : Name) (selections : List Selection) : Selection :=
  .field ⟨none, name, [], [], selections, some ⟨line, 1⟩⟩

/-- Asks for the readings of two stations twice, and for the number of each in between. -/
def stationRequest : Request Unit where
  document := ⟨[.plain .query [.onLine 1 "stations"
    [.onLine 2 "readings" [], .onLine 3 "id" [], .onLine 4 "readings" []]]], []⟩
  root := .json [("stations", .arr [
    .obj [("id", .str "A"), ("readings", .arr [.int 5, .str "five"])],
    .obj [("readings", .arr [.null])]])]
  depth := 2
  rounds := 1

/-- The readings of a station come before its number, in the document and in the errors. -/
def stationResponse : Response where
  errors := [
    ⟨"Int cannot represent non-integer value: \"five\"", [⟨2, 1⟩, ⟨4, 1⟩],
      [.key "stations", .index 0, .key "readings", .index 1], []⟩,
    ⟨"Int cannot represent non-integer value: \"A\"", [⟨3, 1⟩],
      [.key "stations", .index 0, .key "id"], []⟩,
    ⟨"non-null type Int! resolved to null", [⟨2, 1⟩, ⟨4, 1⟩],
      [.key "stations", .index 1, .key "readings", .index 0], []⟩]
  data := some [("stations", .arr [
    .obj [("readings", .null), ("id", .null)], .obj [("readings", .null), ("id", .null)]])]

theorem stationResponse_ordersErrors :
    ∃ schema, stationDraft.build = .ok schema ∧
      (schema.execute stationRequest ()).ending = .responded stationResponse ∧
      ∃ operation root prepared account,
        schema.Prepares stationRequest operation root prepared ∧
        prepared.scope.WorkAccounts (schema.execute stationRequest ()).events prepared.start account ∧
        stationResponse = account.outcome.toResponse ∧
        account.OrdersErrors prepared.scope operation.selections stationResponse.errors :=
  have run : (Schema.execute ⟨"Query", none, stationDraft.registered,
      SchemaDraft.possibleIndex stationDraft.registered⟩ stationRequest ()).ending =
        .responded stationResponse := by decide +kernel
  ⟨_, rfl, run, Schema.execute_ordersErrors run⟩

end GraphQLEngine
