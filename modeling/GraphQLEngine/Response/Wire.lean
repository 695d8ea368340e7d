/-
Responses as JSON.

Errors come first; lists and maps of an error that are empty are left out, and
so is an empty list of errors.  Reading is strict: an entry that is not known
or occurs twice is refused, and an entry that may be left out may not be
null.  A record may also be given as the array of its fields in order, of
which only the last ones may be missing.
-/
import GraphQLEngine.Json.Parser
import GraphQLEngine.Json.Printer
import GraphQLEngine.Response.Basic

namespace GraphQLEngine

/-! ## Writing -/

/-- An entry that is left out if its list is empty. -/
def entryUnlessEmpty {α : Type} (key : String) (items : List α) (value : List α → Json) :
    List (String × Json) :=
  if items.isEmpty then [] else [(key, value items)]

def Location.toJson (l : Location) : Json :=
  .obj [("line", .int l.line), ("column", .int l.column)]

def PathSegment.toJson : PathSegment → Json
  | .key k => .str k
  | .index i => .int i

def ResponseError.toJson (e : ResponseError) : Json :=
  .obj ([("message", .str e.message)]
    ++ entryUnlessEmpty "locations" e.locations (fun ls => .arr (ls.map Location.toJson))
    ++ entryUnlessEmpty "path" e.path (fun p => .arr (p.map PathSegment.toJson))
    ++ entryUnlessEmpty "extensions" e.extensions .obj)

def dataToJson : Option JsonObject → Json
  | some entries => .obj entries
  | none => .null

def Response.toJson (r : Response) : Json :=
  .obj (entryUnlessEmpty "errors" r.errors (fun es => .arr (es.map ResponseError.toJson))
    ++ [("data", dataToJson r.data)])

def Refusal.toJson (r : Refusal) : Json :=
  .obj [("errors", .arr (r.errors.map ResponseError.toJson))]

/-! ## Reading -/

namespace Json

/-- The entries of an object as a record with the given fields: no others, and none twice. -/
def recordOfEntries? (fields : List String) (entries : List (String × Json)) :
    Option (List (Option Json)) :=
  let keys := entries.map Prod.fst
  if keys.all fields.contains && decide keys.Nodup then
    some (fields.map (OrderedMap.get? entries))
  else none

/-- The items of an array as a record: at least `required` of its fields, in order. -/
def recordOfItems? (fields : List String) (required : Nat) (items : List Json) :
    Option (List (Option Json)) :=
  if required ≤ items.length ∧ items.length ≤ fields.length then
    some (items.map some ++ List.replicate (fields.length - items.length) none)
  else none

/-- The values of a record's fields, absent ones included. -/
def record? (fields : List String) (required : Nat) : Json → Option (List (Option Json))
  | .obj entries => recordOfEntries? fields entries
  | .arr items => recordOfItems? fields required items
  | _ => none

/-- A natural number. -/
def asNat? : Json → Option Nat
  | .int n => if 0 ≤ n then some n.toNat else none
  | _ => none

/-- A list, or the empty list if there is no value. -/
def listOrEmpty {α : Type} (item : Json → Option α) : Option Json → Option (List α)
  | none => some []
  | some j => do
    let items ← j.asArray?
    items.mapM item

end Json

def Location.ofJson? (j : Json) : Option Location := do
  match ← j.record? ["line", "column"] 2 with
  | [line, column] => do
    let line ← (← line).asNat?
    let column ← (← column).asNat?
    some ⟨line, column⟩
  | _ => none

def PathSegment.ofJson? : Json → Option PathSegment
  | .str k => some (.key k)
  | j => j.asNat?.map .index

/-- An object with distinct keys, or the empty one if there is no value. -/
def extensionsOfJson? : Option Json → Option JsonObject
  | none => some []
  | some j => j.collapse.asObject?

def ResponseError.ofJson? (j : Json) : Option ResponseError := do
  match ← j.record? ["message", "locations", "path", "extensions"] 1 with
  | [message, locations, path, extensions] => do
    let message ← (← message).asString?
    let locations ← Json.listOrEmpty Location.ofJson? locations
    let path ← Json.listOrEmpty PathSegment.ofJson? path
    let extensions ← extensionsOfJson? extensions
    some { message, locations, path, extensions }
  | _ => none

/-- Data: an object, or nothing if it is null or missing. -/
def dataOfJson? : Option Json → Option (Option JsonObject)
  | none => some none
  | some .null => some none
  | some j => do
    let entries ← j.collapse.asObject?
    some (some entries)

def Response.ofJson? (j : Json) : Option Response := do
  match ← j.record? ["errors", "data"] 2 with
  | [errors, data] => do
    let errors ← Json.listOrEmpty ResponseError.ofJson? errors
    let data ← dataOfJson? data
    some ⟨errors, data⟩
  | _ => none

def Refusal.ofJson? (j : Json) : Option Refusal := do
  match ← j.record? ["errors"] 1 with
  | [errors] => do
    let errors ← (← errors).asArray?
    let errors ← errors.mapM ResponseError.ofJson?
    some ⟨errors⟩
  | _ => none

end GraphQLEngine
