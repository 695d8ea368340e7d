/-
Responses survive the wire.

Writing leaves out what is empty, so reading has to restore it: a record is
read back from its present entries (`recordOfEntries?_present`), and an absent
list is the empty one (`listOrEmpty_unlessEmpty`).  Reading makes the keys of
data and extensions distinct, which changes nothing where they are distinct
already (`collapse_of_distinctKeys`).  How JSON values become text is left
open: `Json.Codec` is any way that gives the value back.
-/
import GraphQLEngine.Proofs.Registration
import GraphQLEngine.Response.Wire

namespace GraphQLEngine

/-! ## Maps with distinct keys -/

namespace OrderedMap

variable {α : Type}

theorem foldl_insert_of_nodup {entries m : OrderedMap α} (h : (m ++ entries).keys.Nodup) :
    entries.foldl (fun m e => insert m e.1 e.2) m = m ++ entries := by
  induction entries generalizing m with
  | nil => exact (List.append_nil m).symm
  | cons e rest ih =>
    obtain ⟨key, a⟩ := e
    rw [List.append_cons] at h
    have hnew : m.contains key = false := by
      rw [Bool.eq_false_iff, ne_eq, contains_iff_mem_keys]
      intro hmem
      rw [keys, List.map_append, List.map_append] at h
      have hearlier := (List.nodup_append.1 h).1
      exact (List.nodup_append.1 hearlier).2.2 key hmem key (List.mem_singleton_self key) rfl
    rw [List.foldl_cons, insert_of_not_contains a hnew, ih h, ← List.append_cons]

/-- Writing entries with distinct keys one after the other gives these entries. -/
theorem ofList_of_nodup {entries : OrderedMap α} (h : entries.keys.Nodup) :
    ofList entries = entries :=
  foldl_insert_of_nodup (m := []) h

end OrderedMap

namespace Json

mutual

/-- No object in a value has a key twice. -/
def DistinctKeys : Json → Prop
  | .null | .bool _ | .int _ | .float _ | .str _ => True
  | .arr items => DistinctKeysOfItems items
  | .obj entries => (OrderedMap.keys entries).Nodup ∧ DistinctKeysOfEntries entries

def DistinctKeysOfItems : List Json → Prop
  | [] => True
  | j :: js => j.DistinctKeys ∧ DistinctKeysOfItems js

def DistinctKeysOfEntries : List (String × Json) → Prop
  | [] => True
  | (_, j) :: es => j.DistinctKeys ∧ DistinctKeysOfEntries es

end

mutual

/-- Making keys distinct changes nothing where they are. -/
theorem collapse_of_distinctKeys : ∀ {j : Json}, j.DistinctKeys → j.collapse = j
  | .null, _ | .bool _, _ | .int _, _ | .float _, _ | .str _, _ => rfl
  | .arr items, h => by rw [collapse, collapseItems_of_distinctKeys h]
  | .obj entries, h => by
      rw [collapse, collapseEntries_of_distinctKeys h.2, OrderedMap.ofList_of_nodup h.1]

theorem collapseItems_of_distinctKeys :
    ∀ {items : List Json}, DistinctKeysOfItems items → collapseItems items = items
  | [], _ => rfl
  | _ :: _, h => by
      rw [collapseItems, collapse_of_distinctKeys h.1, collapseItems_of_distinctKeys h.2]

theorem collapseEntries_of_distinctKeys :
    ∀ {entries : List (String × Json)}, DistinctKeysOfEntries entries → collapseEntries entries = entries
  | [], _ => rfl
  | (_, _) :: _, h => by
      rw [collapseEntries, collapse_of_distinctKeys h.1, collapseEntries_of_distinctKeys h.2]

end

/-! ## Records -/

/-- The entries of a record: its fields that have a value, in order. -/
def presentEntries (fields : List String) (values : List (Option Json)) : List (String × Json) :=
  (fields.zip values).filterMap (fun p => p.2.map (Prod.mk p.1))

theorem presentEntries_nil : presentEntries [] [] = [] := rfl

theorem presentEntries_cons (field : String) (value : Option Json) (fields : List String)
    (values : List (Option Json)) :
    presentEntries (field :: fields) (value :: values) =
      (value.map (Prod.mk field)).toList ++ presentEntries fields values := by
  cases value <;> rfl

theorem keys_presentEntries_sublist (fields : List String) (values : List (Option Json)) :
    (OrderedMap.keys (presentEntries fields values)).Sublist fields := by
  induction fields generalizing values with
  | nil => exact List.Sublist.refl []
  | cons field fields ih =>
    cases values with
    | nil => exact List.nil_sublist _
    | cons value values =>
      rw [presentEntries_cons]
      cases value with
      | none => exact (ih values).cons field
      | some j => exact (ih values).cons_cons field

theorem map_get?_presentEntries {fields : List String} {values : List (Option Json)}
    (hnodup : fields.Nodup) (hlength : fields.length = values.length) :
    fields.map (OrderedMap.get? (presentEntries fields values)) = values := by
  induction fields generalizing values with
  | nil => exact (List.eq_nil_of_length_eq_zero hlength.symm).symm
  | cons field fields ih =>
    obtain _ | ⟨value, values⟩ := values
    · cases hlength
    have ⟨hfield, hfields⟩ := List.nodup_cons.1 hnodup
    rw [presentEntries_cons, List.map_cons]
    congr 1
    · cases value with
      | none =>
        exact OrderedMap.get?_eq_none_of_not_mem fun hmem =>
          hfield ((keys_presentEntries_sublist fields values).subset hmem)
      | some j => exact if_pos rfl
    · refine Eq.trans (List.map_congr_left fun other hother => ?_) (ih hfields (Nat.succ.inj hlength))
      have hne : field ≠ other := fun heq => hfield (heq ▸ hother)
      cases value with
      | none => rfl
      | some j => exact if_neg hne

/-- A record is read back from those of its fields that are present. -/
theorem record?_presentEntries {fields : List String} {values : List (Option Json)} (required : Nat)
    (hnodup : fields.Nodup) (hlength : fields.length = values.length) :
    (obj (presentEntries fields values)).record? fields required = some values := by
  have hsublist := keys_presentEntries_sublist fields values
  have hknown : (OrderedMap.keys (presentEntries fields values)).all fields.contains = true := by
    rw [List.all_eq_true]
    exact fun key hkey => List.contains_iff_mem.2 (hsublist.subset hkey)
  have hdistinct := hnodup.sublist hsublist
  show recordOfEntries? fields _ = _
  rw [OrderedMap.keys] at hknown hdistinct
  rw [recordOfEntries?]
  simp only [hknown, hdistinct, decide_true, Bool.and_self, if_true]
  rw [map_get?_presentEntries hnodup hlength]

/-! ## Parts that may be left out -/

/-- A value that is left out if its list is empty. -/
def unlessEmpty {α : Type} (items : List α) (value : List α → Json) : Option Json :=
  if items.isEmpty then none else some (value items)

theorem entryUnlessEmpty_eq {α : Type} (key : String) (items : List α) (value : List α → Json) :
    entryUnlessEmpty key items value = ((unlessEmpty items value).map (Prod.mk key)).toList := by
  rw [entryUnlessEmpty, unlessEmpty]
  split
  · rfl
  · rfl

theorem mapM_map_of_inverse {α : Type} {write : α → Json} {read : Json → Option α} (items : List α)
    (h : ∀ a ∈ items, read (write a) = some a) : (items.map write).mapM read = some items := by
  induction items with
  | nil => rfl
  | cons a rest ih =>
    have ⟨ha, hrest⟩ := List.forall_mem_cons.1 h
    rw [List.map_cons, List.mapM_cons, ha, ih hrest]
    rfl

/-- A list that was left out is empty, and one that was not is read item by item. -/
theorem listOrEmpty_unlessEmpty {α : Type} {write : α → Json} {read : Json → Option α}
    (items : List α) (h : ∀ a ∈ items, read (write a) = some a) :
    listOrEmpty read (unlessEmpty items (fun items => arr (items.map write))) = some items := by
  rw [unlessEmpty]
  split
  · next hempty =>
    rw [List.isEmpty_iff.1 hempty]
    rfl
  · exact mapM_map_of_inverse items h

end Json

/-! ## Errors -/

theorem Location.record?_toJson (l : Location) :
    l.toJson.record? ["line", "column"] 2 = some [some (.int l.line), some (.int l.column)] := by
  have hwritten : l.toJson =
      .obj (Json.presentEntries ["line", "column"] [some (.int l.line), some (.int l.column)]) := rfl
  rw [hwritten]
  exact Json.record?_presentEntries 2 (by decide) rfl

theorem Location.ofJson?_toJson (l : Location) : ofJson? l.toJson = some l := by
  rw [ofJson?, record?_toJson]
  simp [Json.asNat?]

theorem PathSegment.ofJson?_toJson (segment : PathSegment) : ofJson? segment.toJson = some segment := by
  cases segment with
  | key k => rfl
  | index i => simp [toJson, ofJson?, Json.asNat?]

/-- The extensions have no key twice, at any depth. -/
def ResponseError.DistinctKeys (e : ResponseError) : Prop :=
  (Json.obj e.extensions).DistinctKeys

theorem extensionsOfJson?_unlessEmpty {extensions : JsonObject}
    (h : (Json.obj extensions).DistinctKeys) :
    extensionsOfJson? (Json.unlessEmpty extensions .obj) = some extensions := by
  rw [Json.unlessEmpty]
  split
  · next hempty =>
    rw [List.isEmpty_iff.1 hempty]
    rfl
  · rw [extensionsOfJson?, Json.collapse_of_distinctKeys h]
    rfl

namespace ResponseError

theorem record?_toJson (e : ResponseError) :
    e.toJson.record? ["message", "locations", "path", "extensions"] 1 =
      some [some (.str e.message),
        Json.unlessEmpty e.locations (fun ls => .arr (ls.map Location.toJson)),
        Json.unlessEmpty e.path (fun p => .arr (p.map PathSegment.toJson)),
        Json.unlessEmpty e.extensions .obj] := by
  have hwritten : e.toJson = .obj (Json.presentEntries ["message", "locations", "path", "extensions"]
      [some (.str e.message), Json.unlessEmpty e.locations (fun ls => .arr (ls.map Location.toJson)),
        Json.unlessEmpty e.path (fun p => .arr (p.map PathSegment.toJson)),
        Json.unlessEmpty e.extensions .obj]) := by
    simp [toJson, Json.entryUnlessEmpty_eq, Json.presentEntries_cons, Json.presentEntries_nil]
  rw [hwritten]
  exact Json.record?_presentEntries 1 (by decide) rfl

theorem ofJson?_toJson {e : ResponseError} (h : e.DistinctKeys) : ofJson? e.toJson = some e := by
  have hlocations := Json.listOrEmpty_unlessEmpty e.locations fun l _ => Location.ofJson?_toJson l
  have hpath := Json.listOrEmpty_unlessEmpty e.path fun segment _ => PathSegment.ofJson?_toJson segment
  have hextensions := extensionsOfJson?_unlessEmpty h
  rw [ofJson?, record?_toJson]
  simp [hlocations, hpath, hextensions, Json.asString?]

end ResponseError

/-! ## Responses -/

/-- Data and extensions have no key twice, at any depth. -/
structure Response.DistinctKeys (r : Response) : Prop where
  errors : ∀ e ∈ r.errors, e.DistinctKeys
  data : ∀ entries, r.data = some entries → (Json.obj entries).DistinctKeys

/-- Extensions have no key twice, at any depth. -/
def Refusal.DistinctKeys (r : Refusal) : Prop :=
  ∀ e ∈ r.errors, e.DistinctKeys

theorem dataOfJson?_dataToJson {data : Option JsonObject}
    (h : ∀ entries, data = some entries → (Json.obj entries).DistinctKeys) :
    dataOfJson? (some (dataToJson data)) = some data := by
  cases data with
  | none => rfl
  | some entries =>
    rw [dataToJson, dataOfJson?, Json.collapse_of_distinctKeys (h entries rfl)]
    · rfl
    · rintro ⟨⟩

theorem Response.record?_toJson (r : Response) :
    r.toJson.record? ["errors", "data"] 2 =
      some [Json.unlessEmpty r.errors (fun es => .arr (es.map ResponseError.toJson)),
        some (dataToJson r.data)] := by
  have hwritten : r.toJson = .obj (Json.presentEntries ["errors", "data"]
      [Json.unlessEmpty r.errors (fun es => .arr (es.map ResponseError.toJson)),
        some (dataToJson r.data)]) := by
    simp [toJson, Json.entryUnlessEmpty_eq, Json.presentEntries_cons, Json.presentEntries_nil]
  rw [hwritten]
  exact Json.record?_presentEntries 2 (by decide) rfl

theorem Response.ofJson?_toJson {r : Response} (h : r.DistinctKeys) : ofJson? r.toJson = some r := by
  have herrors := Json.listOrEmpty_unlessEmpty r.errors fun e he =>
    ResponseError.ofJson?_toJson (h.errors e he)
  rw [ofJson?, record?_toJson]
  simp [herrors, dataOfJson?_dataToJson h.data]

theorem Refusal.ofJson?_toJson {r : Refusal} (h : r.DistinctKeys) : ofJson? r.toJson = some r := by
  have herrors := Json.mapM_map_of_inverse r.errors fun e he => ResponseError.ofJson?_toJson (h e he)
  have hrecord : r.toJson.record? ["errors"] 1 =
      some [some (.arr (r.errors.map ResponseError.toJson))] := by
    have hwritten : r.toJson =
        .obj (Json.presentEntries ["errors"] [some (.arr (r.errors.map ResponseError.toJson))]) := rfl
    rw [hwritten]
    exact Json.record?_presentEntries 1 (by decide) rfl
  rw [ofJson?, hrecord]
  simp [herrors, Json.asArray?]

/-! ## Text -/

/-- A way to put JSON values into text and to read them back. -/
structure Json.Codec where
  print : Json → String
  read : String → Option Json

/-- The value is read back from its text. -/
def Json.Codec.Keeps (codec : Json.Codec) (j : Json) : Prop :=
  codec.read (codec.print j) = some j

/-- The codec of this library. -/
def Json.Codec.compact : Json.Codec :=
  ⟨Json.text, Json.parse?⟩

/-- A response and a refusal are read back from their texts as they were, the order of keys, errors,
locations and path segments included, if JSON values are. -/
theorem Json.Codec.decode_encode (codec : Json.Codec) :
    (∀ r : Response, r.DistinctKeys → codec.Keeps r.toJson →
      (codec.read (codec.print r.toJson)).bind Response.ofJson? = some r) ∧
    ∀ r : Refusal, r.DistinctKeys → codec.Keeps r.toJson →
      (codec.read (codec.print r.toJson)).bind Refusal.ofJson? = some r := by
  refine ⟨?_, ?_⟩
  · intro r hdistinct hkeeps
    rw [hkeeps]
    exact Response.ofJson?_toJson hdistinct
  · intro r hdistinct hkeeps
    rw [hkeeps]
    exact Refusal.ofJson?_toJson hdistinct

/-- A response with a path whose key looks like its index, and an error without any details. -/
def shelfResponse : Response :=
  { errors :=
      [{ message := "torn", locations := [⟨2, 5⟩], path := [.key "0", .index 0],
          extensions := [("at", .obj [("x", .null)])] },
        { message := "lost" }]
    data := some [("0", .arr [.null])] }

theorem shelfResponse_decode_encode :
    ((Json.Codec.compact.read (Json.Codec.compact.print shelfResponse.toJson)).bind Response.ofJson? =
        some shelfResponse) ∧
      (Json.Codec.compact.read (Json.Codec.compact.print (Refusal.mk shelfResponse.errors).toJson)).bind
        Refusal.ofJson? = some ⟨shelfResponse.errors⟩ := by
  have hdistinct : shelfResponse.DistinctKeys := by
    constructor
    · simp [shelfResponse, ResponseError.DistinctKeys, Json.DistinctKeys, Json.DistinctKeysOfEntries,
        OrderedMap.keys]
    · simp [shelfResponse, Json.DistinctKeys, Json.DistinctKeysOfEntries, Json.DistinctKeysOfItems,
        OrderedMap.keys]
  have hkeeps : Json.Codec.compact.Keeps shelfResponse.toJson := by
    unfold Json.Codec.Keeps
    decide +kernel
  have hkeeps' : Json.Codec.compact.Keeps (Refusal.mk shelfResponse.errors).toJson := by
    unfold Json.Codec.Keeps
    decide +kernel
  obtain ⟨hresponse, hrefusal⟩ := Json.Codec.compact.decode_encode
  exact ⟨hresponse _ hdistinct hkeeps, hrefusal _ hdistinct.errors hkeeps'⟩

end GraphQLEngine
