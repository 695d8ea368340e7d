/-
Documents without conditions.

The directives `skip` and `include` decide whether a selection counts.  Once the
values of variables are known, `Selection.pruneAll` takes out all selections
that do not, at every depth, and drops both directives from the others.
`Document.pruned` does so in an operation and in every fragment.

What is deleted is said by `Selection.Asserts`: the condition is a Boolean
literal, or a variable that is bound to a Boolean.  `Selection.Undecided` lists
all other cases, and in them the directive deletes nothing.

Pruned selections come to the pruned fields of the selections, by way of the same
fragments (`Flattens.pruned`): a spread that is deleted has not been met, and
one that is not deleted is met where it was.  So their groups are the pruned
groups, one for one and in their order (`Scope.collect_pruned`).
-/
import GraphQLEngine.Proofs.Spreads

namespace GraphQLEngine

variable {ω σ : Type}

/-! ## Conditions -/

namespace Selection

variable {bindings : JsonObject} {s : Selection} {name : Name} {b : Bool}

/-- The condition of the directive with a name has a truth value.  Of several such directives, the
first counts. -/
inductive Asserts (bindings : JsonObject) (s : Selection) (name : Name) (b : Bool) : Prop
  | literal {d : Directive} : directive? s.directives name = some d →
      argument? d.arguments "if" = some (.boolean b) → Asserts bindings s name b
  | bound {d : Directive} {v : Name} : directive? s.directives name = some d →
      argument? d.arguments "if" = some (.variableRef v) →
      OrderedMap.get? bindings v = some (.bool b) → Asserts bindings s name b

/-- The directive with a name is not there, or its condition has no truth value. -/
inductive Undecided (bindings : JsonObject) (s : Selection) (name : Name) : Prop
  | absent : directive? s.directives name = none → Undecided bindings s name
  | unconditional {d : Directive} : directive? s.directives name = some d →
      argument? d.arguments "if" = none → Undecided bindings s name
  | otherLiteral {d : Directive} {l : Literal} : directive? s.directives name = some d →
      argument? d.arguments "if" = some l → l.reference? = none → (∀ b, l ≠ .boolean b) →
      Undecided bindings s name
  | unbound {d : Directive} {v : Name} : directive? s.directives name = some d →
      argument? d.arguments "if" = some (.variableRef v) → OrderedMap.get? bindings v = none →
      Undecided bindings s name
  | otherValue {d : Directive} {v : Name} {value : Json} : directive? s.directives name = some d →
      argument? d.arguments "if" = some (.variableRef v) →
      OrderedMap.get? bindings v = some value → (∀ b, value ≠ .bool b) → Undecided bindings s name

theorem asBool?_eq_some {value : Json} : value.asBool? = some b ↔ value = .bool b := by
  cases value <;> simp [Json.asBool?]

theorem condition?_eq_some : s.condition? bindings name = some b ↔ s.Asserts bindings name b := by
  constructor
  · intro h
    simp only [condition?, Option.bind_eq_bind, Option.bind_eq_some_iff] at h
    obtain ⟨d, hd, l, hl, h⟩ := h
    cases l with
    | boolean b' =>
        cases h
        exact .literal hd hl
    | variableRef v =>
        obtain ⟨value, hvalue, hbool⟩ := Option.bind_eq_some_iff.mp h
        exact .bound hd hl (asBool?_eq_some.mp hbool ▸ hvalue)
    | _ => cases h
  · intro h
    cases h with
    | literal hd hl => simp [condition?, hd, hl]
    | bound hd hl hvalue => simp [condition?, hd, hl, hvalue, Json.asBool?]

theorem Undecided.condition? (h : s.Undecided bindings name) : s.condition? bindings name = none := by
  cases h with
  | absent hd => simp [Selection.condition?, hd]
  | unconditional hd hl => simp [Selection.condition?, hd, hl]
  | @otherLiteral d l hd hl href hbool =>
      cases l with
      | boolean b => exact absurd rfl (hbool b)
      | variableRef v => cases href
      | _ => simp [Selection.condition?, hd, hl]
  | unbound hd hl hvalue => simp [Selection.condition?, hd, hl, hvalue]
  | @otherValue d v value hd hl hvalue hbool =>
      cases value with
      | bool b => exact absurd rfl (hbool b)
      | _ => simp [Selection.condition?, hd, hl, hvalue, Json.asBool?]

/-- A condition without a truth value decides nothing. -/
theorem Undecided.not_asserts (h : s.Undecided bindings name) (b : Bool) :
    ¬ s.Asserts bindings name b := by
  intro hasserts
  have hnone := h.condition?
  rw [condition?_eq_some.mpr hasserts] at hnone
  cases hnone

/-- A selection that does not count: it is skipped, or not included. -/
def Deleted (bindings : JsonObject) (s : Selection) : Prop :=
  s.Asserts bindings "skip" true ∨ s.Asserts bindings "include" false

theorem isIncluded_eq_false : s.isIncluded bindings = false ↔ s.Deleted bindings := by
  rw [Deleted, ← condition?_eq_some, ← condition?_eq_some, isIncluded]
  rcases s.condition? bindings "skip" with _ | _ | _ <;>
    rcases s.condition? bindings "include" with _ | _ | _ <;> decide

theorem isIncluded_eq_true : s.isIncluded bindings = true ↔ ¬ s.Deleted bindings := by
  rw [← isIncluded_eq_false, Bool.not_eq_false]

instance (bindings : JsonObject) (s : Selection) : Decidable (s.Deleted bindings) :=
  decidable_of_iff (s.isIncluded bindings = false) isIncluded_eq_false

end Selection

/-! ## Pruning -/

/-- The directives that set no condition. -/
def Directive.unconditional (directives : List Directive) : List Directive :=
  directives.filter (fun d => d.name ≠ "skip" ∧ d.name ≠ "include")

namespace Selection

mutual

/-- A selection without the conditions, and without what they delete within it. -/
def pruned (bindings : JsonObject) : Selection → Selection
  | .field ⟨alias?, name, arguments, directives, selections, location⟩ =>
    .field ⟨alias?, name, arguments, Directive.unconditional directives,
      pruneAll bindings selections, location⟩
  | .spread ⟨fragment, directives, location⟩ =>
    .spread ⟨fragment, Directive.unconditional directives, location⟩
  | .inlineFragment ⟨condition, directives, selections, location⟩ =>
    .inlineFragment ⟨condition, Directive.unconditional directives, pruneAll bindings selections,
      location⟩

/-- The selections that are not deleted, pruned. -/
def pruneAll (bindings : JsonObject) : List Selection → List Selection
  | [] => []
  | s :: rest =>
    if s.Deleted bindings then pruneAll bindings rest
    else s.pruned bindings :: pruneAll bindings rest

end

end Selection

def FieldSelection.pruned (bindings : JsonObject) (f : Field) : Field :=
  { f with
    directives := Directive.unconditional f.directives
    selections := Selection.pruneAll bindings f.selections }

def FieldGroup.pruned (bindings : JsonObject) (group : FieldGroup) : FieldGroup where
  key := group.key
  first := group.first.pruned bindings
  others := group.others.map (fun f => f.pruned bindings)

def Fragment.pruned (bindings : JsonObject) (fragment : Fragment) : Fragment :=
  { fragment with selections := Selection.pruneAll bindings fragment.selections }

def Operation.pruned (bindings : JsonObject) (operation : Operation) : Operation :=
  { operation with selections := Selection.pruneAll bindings operation.selections }

/-- The document with an operation and all fragments pruned. -/
def Document.pruned (document : Document) (operation : Operation) (bindings : JsonObject) :
    Document where
  operations := document.operations.map fun op =>
    if op.name? = operation.name? then op.pruned bindings else op
  fragments := document.fragments.map fun e => (e.1, e.2.pruned bindings)

/-- The scope in which every fragment is pruned. -/
def Scope.pruned (scope : Scope ω σ) : Scope ω σ :=
  { scope with fragments := scope.fragments.map fun e => (e.1, e.2.pruned scope.bindings) }

/-! ## Pruned selections -/

namespace Selection

variable {bindings : JsonObject}

theorem pruneAll_cons_deleted {s : Selection} (h : s.Deleted bindings) (rest : List Selection) :
    pruneAll bindings (s :: rest) = pruneAll bindings rest := by
  rw [pruneAll, if_pos h]

theorem pruneAll_cons_kept {s : Selection} (h : ¬ s.Deleted bindings) (rest : List Selection) :
    pruneAll bindings (s :: rest) = s.pruned bindings :: pruneAll bindings rest := by
  rw [pruneAll, if_neg h]

theorem pruneAll_eq (bindings : JsonObject) (ss : List Selection) :
    pruneAll bindings ss =
      (ss.filter (fun s => ¬ s.Deleted bindings)).map (fun s => s.pruned bindings) := by
  induction ss with
  | nil => rfl
  | cons s rest ih =>
      by_cases h : s.Deleted bindings
      · rw [pruneAll_cons_deleted h, ih, List.filter_cons_of_neg (by simpa)]
      · rw [pruneAll_cons_kept h, ih, List.filter_cons_of_pos (by simpa), List.map_cons]

theorem pruneAll_flatMap {α : Type} (bindings : JsonObject) (f : α → List Selection) (l : List α) :
    pruneAll bindings (l.flatMap f) = l.flatMap (fun a => pruneAll bindings (f a)) := by
  simp only [pruneAll_eq, List.filter_flatMap, List.map_flatMap]

theorem pruned_field (bindings : JsonObject) (f : Field) :
    (Selection.field f).pruned bindings = .field (f.pruned bindings) := by
  cases f
  rw [pruned]
  rfl

theorem directives_pruned (bindings : JsonObject) (s : Selection) :
    (s.pruned bindings).directives = Directive.unconditional s.directives := by
  rcases s with ⟨_, _, _, _, _, _⟩ | ⟨_, _, _⟩ | ⟨_, _, _, _⟩
  · rw [pruned]
    rfl
  · rw [pruned]
    rfl
  · rw [pruned]
    rfl

/-- Nothing that is left after pruning is deleted, whatever the values of variables. -/
theorem isIncluded_pruned (bindings bindings' : JsonObject) (s : Selection) :
    (s.pruned bindings).isIncluded bindings' = true := by
  have hgone : ∀ name, name = "skip" ∨ name = "include" →
      directive? (s.pruned bindings).directives name = none := by
    intro name hname
    rw [directives_pruned, directive?, List.find?_eq_none]
    intro d hd
    simp only [Directive.unconditional, List.mem_filter, decide_eq_true_eq] at hd
    rcases hname with rfl | rfl
    · simpa using hd.2.1
    · simpa using hd.2.2
  have hskip := hgone "skip" (.inl rfl)
  have hinclude := hgone "include" (.inr rfl)
  simp [isIncluded, condition?, hskip, hinclude]

end Selection

/-! ## Pruned fields -/

namespace Scope

variable {scope : Scope ω σ} {objectType : Name}

theorem expansion?_pruned (scope : Scope ω σ) (objectType name : Name) :
    scope.pruned.expansion? objectType name =
      (scope.expansion? objectType name).map (Selection.pruneAll scope.bindings) := by
  have hget : scope.pruned.fragments.get? name =
      (scope.fragments.get? name).map (Fragment.pruned scope.bindings) :=
    OrderedMap.get?_map (fun _ => Fragment.pruned scope.bindings) name scope.fragments
  rw [expansion?, expansion?, hget]
  cases scope.fragments.get? name with
  | none => rfl
  | some fragment =>
      have happlies : scope.pruned.applies objectType
          (some (fragment.pruned scope.bindings).typeCondition) =
            scope.applies objectType (some fragment.typeCondition) := rfl
      simp only [Option.map_some, happlies]
      split
      · rfl
      · rfl

/-- Pruned selections come to the pruned fields, by way of the same fragments. -/
theorem Flattens.pruned {v v' : List Name} {ss : List Selection} {fs : List Field} :
    scope.Flattens objectType v ss v' fs →
      scope.pruned.Flattens objectType v (Selection.pruneAll scope.bindings ss) v'
        (fs.map (fun f => f.pruned scope.bindings)) := by
  intro h
  induction h with
  | nil => exact .nil
  | excluded hi _ ih =>
      rw [Selection.pruneAll_cons_deleted (Selection.isIncluded_eq_false.mp hi)]
      exact ih
  | field hi _ ih =>
      rw [Selection.pruneAll_cons_kept (Selection.isIncluded_eq_true.mp hi), Selection.pruned_field]
      refine .field ?_ ih
      rw [← Selection.pruned_field]
      exact Selection.isIncluded_pruned _ _ _
  | @met _ _ s _ _ hi hmet _ ih =>
      rw [Selection.pruneAll_cons_kept (Selection.isIncluded_eq_true.mp hi), Selection.pruned]
      exact .met (Selection.isIncluded_pruned scope.bindings _ (.spread s)) hmet ih
  | @barred _ _ s _ _ hi hmet he _ ih =>
      rw [Selection.pruneAll_cons_kept (Selection.isIncluded_eq_true.mp hi), Selection.pruned]
      refine .barred (Selection.isIncluded_pruned scope.bindings _ (.spread s)) hmet ?_ ih
      rw [expansion?_pruned, he, Option.map_none]
  | @spread _ _ _ s _ _ _ _ hi hmet he _ _ ih ih' =>
      rw [Selection.pruneAll_cons_kept (Selection.isIncluded_eq_true.mp hi), Selection.pruned,
        List.map_append]
      refine .spread (Selection.isIncluded_pruned scope.bindings _ (.spread s)) hmet ?_ ih ih'
      rw [expansion?_pruned, he, Option.map_some]
  | @foreign _ _ i _ _ hi ha _ ih =>
      rw [Selection.pruneAll_cons_kept (Selection.isIncluded_eq_true.mp hi), Selection.pruned]
      exact .foreign (Selection.isIncluded_pruned scope.bindings _ (.inlineFragment i)) ha ih
  | @inline _ _ _ i _ _ _ hi ha _ _ ih ih' =>
      rw [Selection.pruneAll_cons_kept (Selection.isIncluded_eq_true.mp hi), Selection.pruned,
        List.map_append]
      exact .inline (Selection.isIncluded_pruned scope.bindings _ (.inlineFragment i)) ha ih ih'

end Scope

/-! ## Pruned groups -/

theorem addToGroups_pruned (bindings : JsonObject) (f : Field) : ∀ groups : List FieldGroup,
    addToGroups (f.pruned bindings) (groups.map (FieldGroup.pruned bindings)) =
      (addToGroups f groups).map (FieldGroup.pruned bindings)
  | [] => rfl
  | g :: rest => by
      have hkey : (g.pruned bindings).key = g.key := rfl
      have hresponse : (f.pruned bindings).responseKey = f.responseKey := rfl
      rw [List.map_cons, addToGroups, addToGroups, hkey, hresponse]
      split
      · simp [FieldGroup.pruned]
      · rw [addToGroups_pruned bindings f rest, List.map_cons]

theorem groupFields_pruned (bindings : JsonObject) : ∀ (fs : List Field) (groups : List FieldGroup),
    groupFields (fs.map (fun f => f.pruned bindings)) (groups.map (FieldGroup.pruned bindings)) =
      (groupFields fs groups).map (FieldGroup.pruned bindings)
  | [], _ => rfl
  | f :: rest, groups => by
      have hrest := groupFields_pruned bindings rest (addToGroups f groups)
      rw [← addToGroups_pruned] at hrest
      exact hrest

/-- Pruned selections are collected to the pruned groups. -/
theorem Scope.collect_pruned (scope : Scope ω σ) (objectType : Name) (ss : List Selection) :
    scope.pruned.collect objectType (Selection.pruneAll scope.bindings ss) =
      (scope.collect objectType ss).map (FieldGroup.pruned scope.bindings) := by
  obtain ⟨v, fs, hfs, heq⟩ := scope.collect_flattens objectType ss
  obtain ⟨v', fs', hfs', heq'⟩ :=
    scope.pruned.collect_flattens objectType (Selection.pruneAll scope.bindings ss)
  obtain ⟨_, rfl⟩ := hfs'.unique hfs.pruned
  rw [heq, heq']
  exact groupFields_pruned scope.bindings fs []

namespace FieldGroup

theorem fields_pruned (bindings : JsonObject) (group : FieldGroup) :
    (group.pruned bindings).fields = group.fields.map (fun f => f.pruned bindings) :=
  rfl

theorem locations_pruned (bindings : JsonObject) (group : FieldGroup) :
    (group.pruned bindings).locations = group.locations := by
  rw [locations, locations, fields_pruned, List.filterMap_map]
  rfl

theorem selections_pruned (bindings : JsonObject) (group : FieldGroup) :
    (group.pruned bindings).selections = Selection.pruneAll bindings group.selections := by
  rw [selections, selections, Selection.pruneAll_flatMap, fields_pruned, List.flatMap_map]
  rfl

end FieldGroup

/-! ## Depth -/

namespace Selection

mutual

theorem nesting_pruned_le (bindings : JsonObject) : ∀ s : Selection,
    (s.pruned bindings).nesting ≤ s.nesting
  | .field ⟨_, _, _, _, selections, _⟩ => by
      rw [pruned, nesting, nesting]
      exact Nat.succ_le_succ (nestingOf_pruneAll_le bindings selections)
  | .spread ⟨_, _, _⟩ => by
      rw [pruned, nesting]
      exact Nat.zero_le _
  | .inlineFragment ⟨_, _, selections, _⟩ => by
      rw [pruned, nesting, nesting]
      exact nestingOf_pruneAll_le bindings selections

theorem nestingOf_pruneAll_le (bindings : JsonObject) : ∀ ss : List Selection,
    nestingOf (pruneAll bindings ss) ≤ nestingOf ss
  | [] => Nat.le_refl _
  | s :: rest => by
      have hfirst := nesting_pruned_le bindings s
      have hrest := nestingOf_pruneAll_le bindings rest
      rw [pruneAll, nestingOf]
      split
      · exact Nat.le_trans hrest (Nat.le_max_right _ _)
      · rw [nestingOf]
        omega

end

end Selection

theorem foldr_add_map_le {α : Type} (weight : α → Nat) (f : α → α)
    (h : ∀ a, weight (f a) ≤ weight a) : ∀ l : List α,
      (l.map f).foldr (fun a n => weight a + n) 0 ≤ l.foldr (fun a n => weight a + n) 0
  | [] => Nat.le_refl _
  | a :: rest => Nat.add_le_add (h a) (foldr_add_map_le weight f h rest)

/-- Pruning makes no document deeper. -/
theorem Document.depthBound_pruned_le (document : Document) (operation : Operation)
    (bindings : JsonObject) :
    (document.pruned operation bindings).depthBound ≤ document.depthBound := by
  have hoperation : ∀ op : Operation,
      Selection.nestingOf (if op.name? = operation.name? then op.pruned bindings else op).selections ≤
        Selection.nestingOf op.selections := by
    intro op
    split
    · exact Selection.nestingOf_pruneAll_le bindings op.selections
    · exact Nat.le_refl _
  have hoperations := foldr_add_map_le (fun op : Operation => Selection.nestingOf op.selections) _
    hoperation document.operations
  have hfragments := foldr_add_map_le
    (fun e : String × Fragment => Selection.nestingOf e.2.selections)
    (fun e => (e.1, e.2.pruned bindings))
    (fun e => Selection.nestingOf_pruneAll_le bindings e.2.selections) document.fragments
  rw [depthBound, depthBound]
  exact Nat.add_le_add_right (Nat.add_le_add hoperations hfragments) _

end GraphQLEngine
