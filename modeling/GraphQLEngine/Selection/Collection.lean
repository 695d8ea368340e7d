/-
Collecting the fields of a selection set.

Fields are grouped by response key, in the order in which keys first occur.
Fragments that apply contribute their fields in place; a named fragment does
so only where it is first met, so that cycles of fragments end.
-/
import GraphQLEngine.Schema.Basic

namespace GraphQLEngine

/-! ## Conditions -/

/-- The truth value of a directive's condition, if it has one. -/
def Selection.condition? (bindings : JsonObject) (selection : Selection) (name : Name) : Option Bool := do
  let d ← directive? selection.directives name
  match ← argument? d.arguments "if" with
  | .boolean b => some b
  | .variableRef v => (← OrderedMap.get? bindings v).asBool?
  | _ => none

/-- Neither skipped nor left out. -/
def Selection.isIncluded (bindings : JsonObject) (selection : Selection) : Bool :=
  !(selection.condition? bindings "skip").getD false && (selection.condition? bindings "include").getD true

/-! ## Groups -/

/-- The fields with one response key, of which there is at least one. -/
structure FieldGroup where
  key : Name
  first : Field
  others : List Field

namespace FieldGroup

def fields (group : FieldGroup) : List Field :=
  group.first :: group.others

/-- The sub-selections of all fields, one after the other. -/
def selections (group : FieldGroup) : List Selection :=
  group.fields.flatMap (fun f => f.selections)

/-- Where the fields stand in the text, those of known location. -/
def locations (group : FieldGroup) : List Location :=
  group.fields.filterMap (fun f => f.location)

end FieldGroup

/-- Adds a field to the group of its response key, which is put at the end if it is new. -/
def addToGroups (field : Field) : List FieldGroup → List FieldGroup
  | [] => [⟨field.responseKey, field, []⟩]
  | g :: rest =>
    if g.key = field.responseKey then { g with others := g.others ++ [field] } :: rest
    else g :: addToGroups field rest

/-- Progress of collection: the fragment names met so far, and the groups. -/
structure Collected where
  visited : List Name
  groups : List FieldGroup

def Collected.empty : Collected := ⟨[], []⟩

/-! ## Collection -/

/-- What the parts of one execution have in common. -/
structure Scope (ω σ : Type) where
  schema : Schema ω σ
  fragments : OrderedMap Fragment
  /-- The values of variables; one that is not listed is unbound. -/
  bindings : JsonObject
  /-- How many children of a node may be at work together, if that is limited. -/
  width : Option Nat

namespace Scope

variable {ω σ : Type}

/-- Whether a fragment without or with a type condition applies to objects of a type. -/
def applies (scope : Scope ω σ) (objectType : Name) : Option Name → Bool
  | none => true
  | some condition => scope.schema.fragmentApplies objectType condition

/-- Meets a spread: its fragment is expanded if it is new, defined and applies. -/
def collectSpread (scope : Scope ω σ) (objectType : Name) (expand : Fragment → Collected → Collected)
    (name : Name) (acc : Collected) : Collected :=
  if acc.visited.contains name then acc
  else
    let acc := { acc with visited := name :: acc.visited }
    match scope.fragments.get? name with
    | none => acc
    | some fragment =>
      if scope.applies objectType (some fragment.typeCondition) then expand fragment acc else acc

mutual

/-- Collects a selection.  Named fragments are left to `expand`. -/
def collectOne (scope : Scope ω σ) (objectType : Name) (expand : Fragment → Collected → Collected) :
    Selection → Collected → Collected
  | .field f, acc =>
    if (Selection.field f).isIncluded scope.bindings then
      { acc with groups := addToGroups f acc.groups }
    else acc
  | .spread s, acc =>
    if (Selection.spread s).isIncluded scope.bindings then
      scope.collectSpread objectType expand s.fragment acc
    else acc
  | .inlineFragment ⟨condition, dirs, selections, location⟩, acc =>
    if (Selection.inlineFragment ⟨condition, dirs, selections, location⟩).isIncluded scope.bindings
        && scope.applies objectType condition then
      scope.collectEach objectType expand selections acc
    else acc

/-- Collects selections in order. -/
def collectEach (scope : Scope ω σ) (objectType : Name) (expand : Fragment → Collected → Collected) :
    List Selection → Collected → Collected
  | [], acc => acc
  | s :: rest, acc =>
    scope.collectEach objectType expand rest (scope.collectOne objectType expand s acc)

end

/-- Collects selections, with named fragments nested at most `depth` deep.

Each fragment on the way down is one that was not met before, so the number
of fragments is depth enough. -/
def collectWithin (scope : Scope ω σ) (objectType : Name) : Nat → List Selection → Collected → Collected
  | 0, selections, acc => scope.collectEach objectType (fun _ acc => acc) selections acc
  | depth + 1, selections, acc =>
    scope.collectEach objectType
      (fun fragment acc => collectWithin scope objectType depth fragment.selections acc) selections acc

/-- The fields of a selection set for an object type, grouped by response key. -/
def collect (scope : Scope ω σ) (objectType : Name) (selections : List Selection) : List FieldGroup :=
  (scope.collectWithin objectType scope.fragments.length selections Collected.empty).groups

end Scope

end GraphQLEngine
