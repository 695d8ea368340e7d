/-
Collection groups the fields of a traversal.

A traversal lists, in pre-order, the fields and the spreads that selections come
to.  It keeps no record on the way: `Scope.ComesTo` leaves open which spreads are
opened, and `Scope.OpensFirst` decides it on the finished list, where the first
spread of each name is opened and the later ones are not.  Every selection list has
exactly one such traversal, in cyclic documents too, and collection groups its
fields by response key (`GroupedBy`).  Nothing is lost by opening fragments only
once: whatever another choice of opened spreads comes to is in the traversal.
-/
import GraphQLEngine.Proofs.Collection

namespace GraphQLEngine

variable {ω σ : Type}

/-! ## Fields by response key -/

theorem insertNew_eraseDups (names : List String) (name : String) :
    insertNew names.eraseDups name = (names ++ [name]).eraseDups := by
  rw [List.eraseDups_append]
  by_cases h : name ∈ names
  · rw [insertNew_of_mem (List.mem_eraseDups.mpr h)]
    simp [List.removeAll, h]
  · rw [insertNew_of_not_mem (fun hm => h (List.mem_eraseDups.mp hm))]
    simp [List.removeAll, h, List.eraseDups_cons]

/-- Groups are what fields come to when they are put together by response key.  No group is empty, since
a `FieldGroup` has a first field. -/
structure GroupedBy (fields : List Field) (groups : List FieldGroup) : Prop where
  /-- One group for each key, in the order in which the keys first occur. -/
  keys : groupKeys groups = (fields.map FieldSelection.responseKey).eraseDups
  /-- A group holds the fields with its key, in order. -/
  members : ∀ g ∈ groups, g.fields = fields.filter (fun f => f.responseKey == g.key)
  /-- Each field is in one group, as often as it occurs. -/
  perm : (groups.flatMap FieldGroup.fields).Perm fields

/-- Where a group of the longer list comes from. -/
theorem mem_addToGroups {f : Field} {g : FieldGroup} :
    ∀ {groups : List FieldGroup}, (groupKeys groups).Nodup → g ∈ addToGroups f groups →
      (g ∈ groups ∧ g.key ≠ f.responseKey) ∨
      (∃ g' ∈ groups, g'.key = f.responseKey ∧ g = { g' with others := g'.others ++ [f] }) ∨
      (f.responseKey ∉ groupKeys groups ∧ g = ⟨f.responseKey, f, []⟩)
  | [], _, hmem => Or.inr (Or.inr ⟨List.not_mem_nil, List.mem_singleton.mp hmem⟩)
  | h :: rest, hnodup, hmem => by
      obtain ⟨hnew, hrest⟩ := List.nodup_cons.mp hnodup
      rw [addToGroups] at hmem
      by_cases hk : h.key = f.responseKey
      · rw [if_pos hk] at hmem
        rcases List.mem_cons.mp hmem with rfl | hmem
        · exact Or.inr (Or.inl ⟨h, List.mem_cons_self, hk, rfl⟩)
        · refine Or.inl ⟨List.mem_cons_of_mem _ hmem, fun e => hnew ?_⟩
          rw [hk, ← e]
          exact List.mem_map_of_mem hmem
      · rw [if_neg hk] at hmem
        rcases List.mem_cons.mp hmem with rfl | hmem
        · exact Or.inl ⟨List.mem_cons_self, hk⟩
        · rcases mem_addToGroups hrest hmem with ⟨hm, hne⟩ | ⟨g', hm, hg'⟩ | ⟨hnot, hg⟩
          · exact Or.inl ⟨List.mem_cons_of_mem _ hm, hne⟩
          · exact Or.inr (Or.inl ⟨g', List.mem_cons_of_mem _ hm, hg'⟩)
          · refine Or.inr (Or.inr ⟨fun hm => ?_, hg⟩)
            exact (List.mem_cons.mp hm).elim (fun e => hk e.symm) hnot

theorem addToGroups_perm (f : Field) : ∀ groups : List FieldGroup,
    ((addToGroups f groups).flatMap FieldGroup.fields).Perm (groups.flatMap FieldGroup.fields ++ [f])
  | [] => List.Perm.refl _
  | g :: rest => by
      rw [addToGroups, List.flatMap_cons]
      by_cases hk : g.key = f.responseKey
      · rw [if_pos hk, List.flatMap_cons]
        show ((g.fields ++ [f]) ++ rest.flatMap FieldGroup.fields).Perm _
        rw [List.append_assoc, List.append_assoc]
        exact List.perm_append_comm.append_left _
      · rw [if_neg hk, List.flatMap_cons, List.append_assoc]
        exact (addToGroups_perm f rest).append_left _

theorem GroupedBy.add {fields : List Field} {groups : List FieldGroup} (h : GroupedBy fields groups)
    (hnodup : (groupKeys groups).Nodup) (f : Field) :
    GroupedBy (fields ++ [f]) (addToGroups f groups) where
  keys := by
    rw [groupKeys_addToGroups, h.keys, insertNew_eraseDups, List.map_append, List.map_singleton]
  members := by
    intro g hg
    rw [List.filter_append]
    rcases mem_addToGroups hnodup hg with ⟨hm, hne⟩ | ⟨g', hm, hk, rfl⟩ | ⟨hnew, rfl⟩
    · have hlast : [f].filter (fun f => f.responseKey == g.key) = [] := by simp [hne.symm]
      rw [hlast, List.append_nil]
      exact h.members g hm
    · have hlast : [f].filter (fun f => f.responseKey == g'.key) = [f] := by simp [hk]
      show g'.fields ++ [f] = _
      rw [h.members g' hm, hlast]
    · have hnone : fields.filter (fun f' => f'.responseKey == f.responseKey) = [] := by
        rw [h.keys, List.mem_eraseDups, List.mem_map] at hnew
        refine List.filter_eq_nil_iff.mpr fun f' hf' e => hnew ⟨f', hf', ?_⟩
        simpa using e
      have hlast : [f].filter (fun f' => f'.responseKey == f.responseKey) = [f] := by simp
      rw [hnone, hlast]
      rfl
  perm := (addToGroups_perm f groups).trans (h.perm.append_right [f])

theorem GroupedBy.groupFields : ∀ {later fields : List Field} {groups : List FieldGroup},
    GroupedBy fields groups → (groupKeys groups).Nodup →
      GroupedBy (fields ++ later) (groupFields later groups)
  | [], fields, groups, h, _ => by
      rw [List.append_nil]
      exact h
  | f :: later, fields, groups, h, hnodup => by
      have hnodup' : (groupKeys (addToGroups f groups)).Nodup := by
        rw [groupKeys_addToGroups]
        exact nodup_insertNew hnodup _
      rw [List.append_cons]
      exact GroupedBy.groupFields (h.add hnodup f) hnodup'

theorem groupedBy_nil : GroupedBy [] [] where
  keys := rfl
  members := fun _ hg => absurd hg List.not_mem_nil
  perm := List.Perm.refl _

/-! ## Traversals -/

/-- What selections come to: a field, or the spread of a name that is opened or not. -/
inductive Encounter where
  | field (field : Field)
  | spread (name : Name) (opened : Bool)

namespace Encounter

def field? : Encounter → Option Field
  | .field f => some f
  | .spread _ _ => none

def spread? : Encounter → Option Name
  | .field _ => none
  | .spread name _ => some name

/-- The fields among what is met. -/
def fields (es : List Encounter) : List Field :=
  es.filterMap field?

/-- The names of the spreads among what is met, opened or not. -/
def spreads (es : List Encounter) : List Name :=
  es.filterMap spread?

variable (f : Field) (name : Name) (opened : Bool) (es es' : List Encounter)

@[simp]
theorem fields_cons_field : fields (.field f :: es) = f :: fields es := rfl

@[simp]
theorem fields_cons_spread : fields (.spread name opened :: es) = fields es := rfl

@[simp]
theorem fields_append : fields (es ++ es') = fields es ++ fields es' :=
  List.filterMap_append

@[simp]
theorem spreads_nil : spreads [] = [] := rfl

@[simp]
theorem spreads_cons_field : spreads (.field f :: es) = spreads es := rfl

@[simp]
theorem spreads_cons_spread : spreads (.spread name opened :: es) = name :: spreads es := rfl

@[simp]
theorem spreads_append : spreads (es ++ es') = spreads es ++ spreads es' :=
  List.filterMap_append

variable {f name opened es es'} {met : List Name} {n : Name}

/-- A spread that comes first counts as met before. -/
theorem mem_spreads_cons_spread :
    n ∈ spreads (.spread name opened :: es) ++ met ↔ n ∈ spreads es ++ name :: met :=
  List.perm_middle.symm.mem_iff

/-- The spreads that come first count as met before. -/
theorem mem_spreads_append : n ∈ spreads (es ++ es') ++ met ↔ n ∈ spreads es' ++ (spreads es ++ met) := by
  rw [spreads_append, ← List.append_assoc]
  exact (List.perm_append_comm.append_right met).mem_iff

theorem not_mem_spreads_cons_spread : n ∉ met ∧ n ∉ spreads (.spread name opened :: es) ↔
    n ∉ name :: met ∧ n ∉ spreads es := by
  simp only [spreads_cons_spread, List.mem_cons, not_or, and_assoc, and_left_comm]

end Encounter

open Encounter (fields spreads)

namespace Scope

/-- What selections come to for an object type, in pre-order.  Selections that are skipped and
fragments that do not apply add nothing; any spread with something behind it may be opened. -/
inductive ComesTo (scope : Scope ω σ) (objectType : Name) :
    List Selection → List Encounter → Prop
  | nil : ComesTo scope objectType [] []
  | excluded {s : Selection} {rest : List Selection} {es : List Encounter} :
      s.isIncluded scope.bindings = false → ComesTo scope objectType rest es →
      ComesTo scope objectType (s :: rest) es
  | field {f : Field} {rest : List Selection} {es : List Encounter} :
      (Selection.field f).isIncluded scope.bindings = true → ComesTo scope objectType rest es →
      ComesTo scope objectType (.field f :: rest) (.field f :: es)
  | closed {s : FragmentSpread} {rest : List Selection} {es : List Encounter} :
      (Selection.spread s).isIncluded scope.bindings = true → ComesTo scope objectType rest es →
      ComesTo scope objectType (.spread s :: rest) (.spread s.fragment false :: es)
  | opened {s : FragmentSpread} {rest selections : List Selection} {es es' : List Encounter} :
      (Selection.spread s).isIncluded scope.bindings = true →
      scope.expansion? objectType s.fragment = some selections →
      ComesTo scope objectType selections es → ComesTo scope objectType rest es' →
      ComesTo scope objectType (.spread s :: rest) (.spread s.fragment true :: (es ++ es'))
  | foreign {i : InlineFragment Selection} {rest : List Selection} {es : List Encounter} :
      (Selection.inlineFragment i).isIncluded scope.bindings = true →
      scope.applies objectType i.typeCondition = false → ComesTo scope objectType rest es →
      ComesTo scope objectType (.inlineFragment i :: rest) es
  | inline {i : InlineFragment Selection} {rest : List Selection} {es es' : List Encounter} :
      (Selection.inlineFragment i).isIncluded scope.bindings = true →
      scope.applies objectType i.typeCondition = true →
      ComesTo scope objectType i.selections es → ComesTo scope objectType rest es' →
      ComesTo scope objectType (.inlineFragment i :: rest) (es ++ es')

/-- A spread is opened if it is the first of its name, counting the names met before the list, and
has something behind it; and only then. -/
def OpensFirst (scope : Scope ω σ) (objectType : Name) (met : List Name) (es : List Encounter) : Prop :=
  ∀ before name opened after, es = before ++ .spread name opened :: after →
    (opened = true ↔
      (scope.expansion? objectType name).isSome = true ∧ name ∉ met ∧ name ∉ spreads before)

/-- The pre-order list of what selections come to, each named fragment being expanded at the first
spread of it that is met. -/
structure Traverses (scope : Scope ω σ) (objectType : Name) (ss : List Selection)
    (es : List Encounter) : Prop where
  comesTo : scope.ComesTo objectType ss es
  opensFirst : scope.OpensFirst objectType [] es

variable {scope : Scope ω σ} {objectType : Name} {met : List Name}

namespace OpensFirst

theorem nil : scope.OpensFirst objectType met [] := by
  intro before name opened after h
  simp at h

theorem cons_field_iff {f : Field} {es : List Encounter} :
    scope.OpensFirst objectType met (.field f :: es) ↔ scope.OpensFirst objectType met es := by
  constructor
  · intro h before name opened after hes
    exact h (.field f :: before) name opened after (by rw [hes, List.cons_append])
  · intro h before name opened after hes
    cases before with
    | nil => cases hes
    | cons e before =>
        cases hes
        exact h before name opened after rfl

theorem cons_spread_iff {name : Name} {opened : Bool} {es : List Encounter} :
    scope.OpensFirst objectType met (.spread name opened :: es) ↔
      (opened = true ↔ (scope.expansion? objectType name).isSome = true ∧ name ∉ met) ∧
        scope.OpensFirst objectType (name :: met) es := by
  constructor
  · intro h
    refine ⟨by simpa using h [] name opened es rfl, ?_⟩
    intro before other opened' after hes
    have hother := h (.spread name opened :: before) other opened' after (by rw [hes, List.cons_append])
    rw [hother, Encounter.not_mem_spreads_cons_spread]
  · rintro ⟨hname, h⟩ before other opened' after hes
    cases before with
    | nil =>
        cases hes
        simpa using hname
    | cons e before =>
        cases hes
        rw [h before other opened' after rfl, Encounter.not_mem_spreads_cons_spread]

/-- Which names were met before matters, not how often. -/
theorem congr {met' : List Name} {es : List Encounter} (hmet : ∀ n, n ∈ met ↔ n ∈ met')
    (h : scope.OpensFirst objectType met es) : scope.OpensFirst objectType met' es := by
  intro before name opened after hes
  rw [h before name opened after hes, hmet]

theorem append_iff : ∀ {es es' : List Encounter} {met : List Name},
    scope.OpensFirst objectType met (es ++ es') ↔
      scope.OpensFirst objectType met es ∧ scope.OpensFirst objectType (spreads es ++ met) es'
  | [], es', met => ⟨fun h => ⟨nil, h⟩, fun h => h.2⟩
  | .field f :: es, es', met => by
      rw [List.cons_append, cons_field_iff, cons_field_iff, append_iff, Encounter.spreads_cons_field]
  | .spread name opened :: es, es', met => by
      have hmet : scope.OpensFirst objectType (spreads es ++ name :: met) es' ↔
          scope.OpensFirst objectType (spreads (.spread name opened :: es) ++ met) es' :=
        ⟨congr fun _ => Encounter.mem_spreads_cons_spread.symm, congr fun _ => Encounter.mem_spreads_cons_spread⟩
      rw [List.cons_append, cons_spread_iff, cons_spread_iff, append_iff, and_assoc, hmet]

end OpensFirst

/-! ## There is one traversal -/

/-- With the first spreads opened, selections come to one list. -/
theorem ComesTo.unique {ss : List Selection} {es : List Encounter}
    (h : scope.ComesTo objectType ss es) : ∀ {met : List Name} {es' : List Encounter},
      scope.OpensFirst objectType met es → scope.ComesTo objectType ss es' →
      scope.OpensFirst objectType met es' → es' = es := by
  induction h with
  | nil =>
      intro met es' _ h' _
      cases h'
      rfl
  | excluded hi _ ih =>
      intro met es' ho h' ho'
      cases h' with
      | excluded _ h' => exact ih ho h' ho'
      | _ => simp_all
  | field hi _ ih =>
      intro met es' ho h' ho'
      cases h' with
      | field _ h' => rw [ih (OpensFirst.cons_field_iff.mp ho) h' (OpensFirst.cons_field_iff.mp ho')]
      | excluded hi' _ => simp_all
  | closed hi _ ih =>
      intro met es' ho h' ho'
      obtain ⟨hfirst, ho⟩ := OpensFirst.cons_spread_iff.mp ho
      cases h' with
      | closed _ h' => rw [ih ho h' (OpensFirst.cons_spread_iff.mp ho').2]
      | opened _ _ _ _ =>
          have hfirst' := (OpensFirst.cons_spread_iff.mp ho').1
          exact absurd (hfirst.mpr (hfirst'.mp rfl)) Bool.false_ne_true
      | excluded hi' _ => simp_all
  | opened hi hx _ _ ih₁ ih₂ =>
      intro met es' ho h' ho'
      obtain ⟨hfirst, ho⟩ := OpensFirst.cons_spread_iff.mp ho
      obtain ⟨ho₁, ho₂⟩ := OpensFirst.append_iff.mp ho
      cases h' with
      | opened _ hx' h₁ h₂ =>
          obtain ⟨ho₁', ho₂'⟩ := OpensFirst.append_iff.mp (OpensFirst.cons_spread_iff.mp ho').2
          rw [hx, Option.some.injEq] at hx'
          have hes := ih₁ ho₁ (hx' ▸ h₁) ho₁'
          subst hes
          rw [ih₂ ho₂ h₂ ho₂']
      | closed _ _ =>
          have hfirst' := (OpensFirst.cons_spread_iff.mp ho').1
          exact absurd (hfirst'.mpr (hfirst.mp rfl)) Bool.false_ne_true
      | excluded hi' _ => simp_all
  | foreign hi ha _ ih =>
      intro met es' ho h' ho'
      cases h' with
      | foreign _ _ h' => exact ih ho h' ho'
      | excluded hi' _ => simp_all
      | inline _ ha' _ _ => simp_all
  | inline hi ha _ _ ih₁ ih₂ =>
      intro met es' ho h' ho'
      obtain ⟨ho₁, ho₂⟩ := OpensFirst.append_iff.mp ho
      cases h' with
      | inline _ _ h₁ h₂ =>
          obtain ⟨ho₁', ho₂'⟩ := OpensFirst.append_iff.mp ho'
          have hes := ih₁ ho₁ h₁ ho₁'
          subst hes
          rw [ih₂ ho₂ h₂ ho₂']
      | excluded hi' _ => simp_all
      | foreign _ ha' _ => simp_all

/-- The record of fragments met on the way can be read off the finished list. -/
theorem Flattens.exists_comesTo {v v' : List Name} {ss : List Selection} {fs : List Field}
    (h : scope.Flattens objectType v ss v' fs) :
    ∃ es, scope.ComesTo objectType ss es ∧ scope.OpensFirst objectType v es ∧ fields es = fs ∧
      ∀ n, n ∈ v' ↔ n ∈ spreads es ++ v := by
  induction h with
  | nil => exact ⟨[], .nil, OpensFirst.nil, rfl, fun n => Iff.rfl⟩
  | excluded hi _ ih =>
      obtain ⟨es, hu, ho, hf, hv⟩ := ih
      exact ⟨es, .excluded hi hu, ho, hf, hv⟩
  | @field _ _ f _ _ hi _ ih =>
      obtain ⟨es, hu, ho, hf, hv⟩ := ih
      exact ⟨.field f :: es, .field hi hu, OpensFirst.cons_field_iff.mpr ho, by simp [hf], hv⟩
  | @met v _ s _ _ hi hm _ ih =>
      obtain ⟨es, hu, ho, hf, hv⟩ := ih
      have hcons : ∀ n, n ∈ v ↔ n ∈ s.fragment :: v := by
        intro n
        exact ⟨List.mem_cons_of_mem _, fun h => (List.mem_cons.mp h).elim (fun e => e ▸ hm) id⟩
      refine ⟨.spread s.fragment false :: es, .closed hi hu,
        OpensFirst.cons_spread_iff.mpr ⟨by simp [hm], ho.congr hcons⟩, by simp [hf], ?_⟩
      intro n
      rw [hv, Encounter.mem_spreads_cons_spread, List.mem_append, hcons, List.mem_append]
  | @barred v _ s _ _ hi hm hx _ ih =>
      obtain ⟨es, hu, ho, hf, hv⟩ := ih
      exact ⟨.spread s.fragment false :: es, .closed hi hu,
        OpensFirst.cons_spread_iff.mpr ⟨by simp [hx], ho⟩, by simp [hf],
        fun n => (hv n).trans Encounter.mem_spreads_cons_spread.symm⟩
  | @spread v between _ s _ _ _ _ hi hm hx _ _ ih₁ ih₂ =>
      obtain ⟨es₁, hu₁, ho₁, hf₁, hv₁⟩ := ih₁
      obtain ⟨es₂, hu₂, ho₂, hf₂, hv₂⟩ := ih₂
      refine ⟨.spread s.fragment true :: (es₁ ++ es₂), .opened hi hx hu₁ hu₂,
        OpensFirst.cons_spread_iff.mpr ⟨by simp [hx, hm],
          OpensFirst.append_iff.mpr ⟨ho₁, ho₂.congr hv₁⟩⟩, by simp [hf₁, hf₂], ?_⟩
      intro n
      rw [hv₂, Encounter.mem_spreads_cons_spread, Encounter.mem_spreads_append, List.mem_append, hv₁,
        ← List.mem_append]
  | foreign hi ha _ ih =>
      obtain ⟨es, hu, ho, hf, hv⟩ := ih
      exact ⟨es, .foreign hi ha hu, ho, hf, hv⟩
  | inline hi ha _ _ ih₁ ih₂ =>
      obtain ⟨es₁, hu₁, ho₁, hf₁, hv₁⟩ := ih₁
      obtain ⟨es₂, hu₂, ho₂, hf₂, hv₂⟩ := ih₂
      refine ⟨es₁ ++ es₂, .inline hi ha hu₁ hu₂, OpensFirst.append_iff.mpr ⟨ho₁, ho₂.congr hv₁⟩,
        by simp [hf₁, hf₂], ?_⟩
      intro n
      rw [hv₂, Encounter.mem_spreads_append, List.mem_append, hv₁, ← List.mem_append]

/-- Covered selections come to covered fields, however spreads are opened. -/
theorem ComesTo.fields_subset {names : List Name} {fs : List Field} {ss : List Selection}
    {es : List Encounter} (h : scope.ComesTo objectType ss es)
    (hss : scope.Covered objectType names fs ss) (hc : scope.Closed objectType names fs names) :
    fields es ⊆ fs := by
  induction h with
  | nil => exact List.nil_subset _
  | excluded hi _ ih => cases hss <;> exact ih ‹_›
  | field hi _ ih =>
      cases hss with
      | excluded hi' _ => simp_all
      | field hm hr => exact List.cons_subset.mpr ⟨hm, ih hr⟩
  | closed hi _ ih => cases hss <;> exact ih ‹_›
  | opened hi hx _ _ ih₁ ih₂ =>
      cases hss with
      | excluded hi' _ => simp_all
      | spread hm hr =>
          rw [Encounter.fields_cons_spread, Encounter.fields_append]
          exact List.append_subset.mpr ⟨ih₁ (hc _ hm _ hx), ih₂ hr⟩
  | foreign hi _ _ ih => cases hss <;> exact ih ‹_›
  | inline hi ha _ _ ih₁ ih₂ =>
      cases hss with
      | excluded hi' _ => simp_all
      | foreign ha' _ => simp_all
      | inline hs hr =>
          rw [Encounter.fields_append]
          exact List.append_subset.mpr ⟨ih₁ hs, ih₂ hr⟩

/-! ## Collection -/

/-- Selections have one traversal, and collection groups its fields.  No other way of opening spreads
comes to a field that the traversal lacks. -/
theorem collect_groupedBy (scope : Scope ω σ) (objectType : Name) (ss : List Selection) :
    ∃ es, scope.Traverses objectType ss es ∧
      (∀ es', scope.Traverses objectType ss es' → es' = es) ∧
      GroupedBy (fields es) (scope.collect objectType ss) ∧
      ∀ es', scope.ComesTo objectType ss es' → fields es' ⊆ fields es := by
  obtain ⟨v, fs, hflat, hcollect⟩ := scope.collect_flattens objectType ss
  obtain ⟨es, hcomes, hopens, rfl, -⟩ := hflat.exists_comesTo
  refine ⟨es, ⟨hcomes, hopens⟩, fun es' h' => hcomes.unique hopens h'.comesTo h'.opensFirst, ?_, ?_⟩
  · rw [hcollect]
    exact groupedBy_nil.groupFields List.nodup_nil
  · intro es' h'
    exact h'.fields_subset hflat.covered fun n hn => hflat.closed n hn List.not_mem_nil

end Scope

end GraphQLEngine
