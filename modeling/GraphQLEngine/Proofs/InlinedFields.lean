/-
The fields of inlined selections.

Collection expands a named fragment only where it is first met, and an inline
fragment wherever it stands.  So inlined selections come to more fields, but
whatever is added repeats fields that were collected before
(`Flattens.repeats`): when a spread is met again, the fields of its fragment
are all there.  That needs an acyclic document, since within a fragment that
spreads itself the fragment's fields are not complete yet.

`Selection.Inlines` says this of two lists of selections for every object type.
It passes to the selections of corresponding groups, which are put together
from fields that repeat each other (`Inlines.of_retells`).
-/
import GraphQLEngine.Proofs.Inlining
import GraphQLEngine.Proofs.Repetition

namespace GraphQLEngine

variable {ω σ : Type}

/-! ## Fields apart from named fragments -/

namespace Scope

mutual

def ownFieldsOne (scope : Scope ω σ) (objectType : Name) : Selection → List Field
  | .field f => if (Selection.field f).isIncluded scope.bindings then [f] else []
  | .spread _ => []
  | .inlineFragment ⟨condition, directives, selections, location⟩ =>
    if (Selection.inlineFragment ⟨condition, directives, selections, location⟩).isIncluded scope.bindings
        && scope.applies objectType condition then
      scope.ownFields objectType selections
    else []

/-- The fields that selections come to for an object type if they spread nothing. -/
def ownFields (scope : Scope ω σ) (objectType : Name) : List Selection → List Field
  | [] => []
  | s :: rest => scope.ownFieldsOne objectType s ++ scope.ownFields objectType rest

end

variable {scope : Scope ω σ} {objectType : Name}

theorem ownFields_append (scope : Scope ω σ) (objectType : Name) (ss ts : List Selection) :
    scope.ownFields objectType (ss ++ ts) =
      scope.ownFields objectType ss ++ scope.ownFields objectType ts := by
  induction ss with
  | nil => rfl
  | cons s rest ih => rw [List.cons_append, ownFields, ownFields, ih, List.append_assoc]

theorem ownFields_flatMap {α : Type} (scope : Scope ω σ) (objectType : Name)
    (f : α → List Selection) :
    ∀ l : List α, scope.ownFields objectType (l.flatMap f) =
      l.flatMap (fun a => scope.ownFields objectType (f a))
  | [] => rfl
  | a :: rest => by
      rw [List.flatMap_cons, List.flatMap_cons, ownFields_append,
        ownFields_flatMap scope objectType f rest]

section

variable (scope : Scope ω σ) (fragments : OrderedMap Fragment) (objectType : Name)

mutual

theorem ownFieldsOne_withFragments : ∀ s : Selection,
    Scope.ownFieldsOne { scope with fragments } objectType s = scope.ownFieldsOne objectType s
  | .field _ => rfl
  | .spread _ => rfl
  | .inlineFragment ⟨_, _, selections, _⟩ => by
      rw [ownFieldsOne, ownFieldsOne, ownFields_withFragments selections]
      rfl

/-- The fragments of the scope do not matter. -/
theorem ownFields_withFragments : ∀ ss : List Selection,
    Scope.ownFields { scope with fragments } objectType ss = scope.ownFields objectType ss
  | [] => rfl
  | s :: rest => by
      rw [ownFields, ownFields, ownFieldsOne_withFragments s, ownFields_withFragments rest]

end

end

mutual

theorem flattens_ownFieldsOne (visited : List Name) :
    ∀ s : Selection, Selection.SpreadFree [s] →
      scope.Flattens objectType visited [s] visited (scope.ownFieldsOne objectType s)
  | .field f, _ => by
      rw [ownFieldsOne]
      match hi : (Selection.field f).isIncluded scope.bindings with
      | true => exact .field hi .nil
      | false => exact .excluded hi .nil
  | .spread s, hfree => absurd (.spread rfl) (hfree s.fragment)
  | .inlineFragment ⟨condition, directives, selections, location⟩, hfree => by
      have hwithin := flattens_ownFields visited selections fun name h => hfree name (.inline h)
      rw [ownFieldsOne]
      match hi : (Selection.inlineFragment
          ⟨condition, directives, selections, location⟩).isIncluded scope.bindings,
        ha : scope.applies objectType condition with
      | false, _ => exact .excluded hi .nil
      | true, false => exact .foreign hi ha .nil
      | true, true =>
          exact List.append_nil (scope.ownFields objectType selections) ▸ .inline hi ha hwithin .nil

theorem flattens_ownFields (visited : List Name) :
    ∀ ss : List Selection, Selection.SpreadFree ss →
      scope.Flattens objectType visited ss visited (scope.ownFields objectType ss)
  | [], _ => .nil
  | s :: rest, hfree => by
      have hfirst := flattens_ownFieldsOne visited s fun name h => hfree name (h.of_mem List.mem_cons_self)
      have hrest := flattens_ownFields visited rest fun name h => hfree name (.later h)
      exact hfirst.append hrest

end

/-- What spreads nothing is collected without regard to fragments. -/
theorem collect_of_spreadFree (scope : Scope ω σ) (objectType : Name) {ss : List Selection}
    (hfree : Selection.SpreadFree ss) :
    scope.collect objectType ss = groupFields (scope.ownFields objectType ss) [] := by
  obtain ⟨visited, fields, hfields, heq⟩ := scope.collect_flattens objectType ss
  obtain ⟨-, rfl⟩ := hfields.unique (flattens_ownFields [] ss hfree)
  exact heq

/-! ## Inlined selections -/

variable {document : Document}

theorem ownFields_inline_cons (scope : Scope ω σ) (objectType : Name) (document : Document)
    (s : Selection) (rest : List Selection) :
    scope.ownFields objectType (document.inline (s :: rest)) =
      scope.ownFields objectType (document.inline [s]) ++
        scope.ownFields objectType (document.inline rest) := by
  rw [Document.inline_cons, ownFields_append]

theorem ownFields_singleton (scope : Scope ω σ) (objectType : Name) (s : Selection) :
    scope.ownFields objectType [s] = scope.ownFieldsOne objectType s :=
  List.append_nil _

theorem ownFieldsOne_of_excluded {s : Selection} (h : s.isIncluded scope.bindings = false) :
    scope.ownFieldsOne objectType s = [] := by
  match s with
  | .field f => rw [ownFieldsOne, h]; rfl
  | .spread _ => rfl
  | .inlineFragment ⟨_, _, _, _⟩ => rw [ownFieldsOne, h]; rfl

/-- Inlining a selection keeps its directives. -/
theorem ownFields_inline_of_excluded (hacyclic : document.Acyclic) {s : Selection}
    (h : s.isIncluded scope.bindings = false) :
    scope.ownFields objectType (document.inline [s]) = [] := by
  match s with
  | .field f =>
      rw [Document.inline_field, ownFields_singleton]
      exact ownFieldsOne_of_excluded h
  | .inlineFragment i =>
      rw [Document.inline_inlineFragment, ownFields_singleton]
      exact ownFieldsOne_of_excluded h
  | .spread s =>
      rw [Document.inline_spread]
      cases hget : document.fragments.get? s.fragment with
      | none => rw [Document.inlineSpread_of_none hget]; rfl
      | some fragment =>
          rw [Document.inlineSpread_of_get? hacyclic hget, ownFields_singleton]
          exact ownFieldsOne_of_excluded h

theorem ownFields_inline_field (document : Document) {f : Field}
    (h : (Selection.field f).isIncluded scope.bindings = true) :
    scope.ownFields objectType (document.inline [.field f]) = [document.inlineField f] := by
  have hi : (Selection.field (document.inlineField f)).isIncluded scope.bindings = true := h
  rw [Document.inline_field, ownFields_singleton, ownFieldsOne, hi]
  rfl

theorem ownFields_inline_inlineFragment (document : Document) {i : InlineFragment Selection}
    (h : (Selection.inlineFragment i).isIncluded scope.bindings = true) :
    scope.ownFields objectType (document.inline [.inlineFragment i]) =
      if scope.applies objectType i.typeCondition then
        scope.ownFields objectType (document.inline i.selections)
      else [] := by
  have hi : (Selection.inlineFragment
      { i with selections := document.inline i.selections }).isIncluded scope.bindings = true := h
  rw [Document.inline_inlineFragment, ownFields_singleton, ownFieldsOne, hi]
  rfl

/-- A spread that is included comes to the fields of its fragment, if that applies. -/
theorem ownFields_inline_spread (hfragments : scope.fragments = document.fragments)
    (hacyclic : document.Acyclic) {s : FragmentSpread}
    (h : (Selection.spread s).isIncluded scope.bindings = true) :
    scope.ownFields objectType (document.inline [.spread s]) =
      match scope.expansion? objectType s.fragment with
      | none => []
      | some selections => scope.ownFields objectType (document.inline selections) := by
  rw [Document.inline_spread, expansion?, hfragments]
  cases hget : document.fragments.get? s.fragment with
  | none => rw [Document.inlineSpread_of_none hget]; rfl
  | some fragment =>
      have hi : (s.inlineFragment fragment
          (document.inline fragment.selections)).isIncluded scope.bindings = true := h
      rw [Document.inlineSpread_of_get? hacyclic hget, ownFields_singleton]
      rw [FragmentSpread.inlineFragment] at hi ⊢
      rw [ownFieldsOne, hi, Bool.true_and]
      by_cases ha : scope.applies objectType (some fragment.typeCondition) = true
      · simp only [ha, if_true]
      · rw [Bool.not_eq_true] at ha
        simp only [ha]
        rfl

/-! ## Repetition -/

/-- Whatever a fragment could add, once it is inlined, is among the fields. -/
def Tells (scope : Scope ω σ) (document : Document) (objectType : Name) (fields : List Field)
    (name : Name) : Prop :=
  ∀ selections, scope.expansion? objectType name = some selections →
    scope.ownFields objectType (document.inline selections) ⊆ fields.map document.inlineField

theorem Tells.append {fields : List Field} {name : Name}
    (h : scope.Tells document objectType fields name) (more : List Field) :
    scope.Tells document objectType (fields ++ more) name := by
  intro selections hx
  rw [List.map_append]
  exact List.Subset.trans (h selections hx) (List.subset_append_left _ _)

theorem Tells.of_none {fields : List Field} {name : Name}
    (h : scope.expansion? objectType name = none) : scope.Tells document objectType fields name := by
  intro selections hx
  rw [h] at hx
  cases hx

/-- The fragments met before have been told to the end, as far as selections reach them. -/
def TellsReached (scope : Scope ω σ) (document : Document) (objectType : Name) (fields : List Field)
    (visited : List Name) (ss : List Selection) : Prop :=
  ∀ n ∈ visited, Selection.Reaches document.fragments n ss → scope.Tells document objectType fields n

/-- The fragments that were met in between have been told to the end. -/
def TellsSince (scope : Scope ω σ) (document : Document) (objectType : Name) (fields : List Field)
    (visited visited' : List Name) : Prop :=
  ∀ n ∈ visited', n ∈ visited ∨ scope.Tells document objectType fields n

section Tells

variable {fields : List Field} {v between v' : List Name} {ss ts : List Selection} {s : Selection}
  {name : Name}

theorem TellsReached.mono (h : scope.TellsReached document objectType fields v ss)
    (hsub : ∀ other, Selection.Spreads other ts → Selection.Spreads other ss) :
    scope.TellsReached document objectType fields v ts :=
  fun n hn hreach => h n hn (hreach.mono hsub)

theorem TellsReached.later (h : scope.TellsReached document objectType fields v (s :: ss)) :
    scope.TellsReached document objectType fields v ss :=
  h.mono fun _ => .later

theorem TellsReached.append (h : scope.TellsReached document objectType fields v ss)
    (more : List Field) : scope.TellsReached document objectType (fields ++ more) v ss :=
  fun n hn hreach => (h n hn hreach).append more

theorem TellsReached.cons (h : scope.TellsReached document objectType fields v ss)
    (hname : scope.Tells document objectType fields name) :
    scope.TellsReached document objectType fields (name :: v) ss := by
  intro n hn hreach
  rcases List.mem_cons.mp hn with rfl | hn
  · exact hname
  · exact h n hn hreach

/-- Within its fragment a spread cannot be met again. -/
theorem TellsReached.within {spread : FragmentSpread} {fragment : Fragment}
    (h : scope.TellsReached document objectType fields v (.spread spread :: ss))
    (hacyclic : document.Acyclic) (hget : document.fragments.get? spread.fragment = some fragment) :
    scope.TellsReached document objectType fields (spread.fragment :: v) fragment.selections := by
  intro n hn hreach
  rcases List.mem_cons.mp hn with rfl | hn
  · exact absurd hreach (hacyclic _ _ hget)
  · exact h n hn (.through (.spread rfl) hget hreach)

theorem TellsReached.after {more : List Field}
    (h : scope.TellsReached document objectType fields v ss)
    (k : scope.TellsSince document objectType (fields ++ more) v v') :
    scope.TellsReached document objectType (fields ++ more) v' ss := by
  intro n hn hreach
  rcases k n hn with hn | htells
  · exact (h n hn hreach).append more
  · exact htells

theorem TellsSince.drop (h : scope.TellsSince document objectType fields (name :: v) v')
    (hname : scope.Tells document objectType fields name) :
    scope.TellsSince document objectType fields v v' := by
  intro n hn
  rcases h n hn with hn | htells
  · exact (List.mem_cons.mp hn).elim (fun heq => Or.inr (heq ▸ hname)) Or.inl
  · exact Or.inr htells

theorem TellsSince.trans {more : List Field}
    (h : scope.TellsSince document objectType fields v between)
    (k : scope.TellsSince document objectType (fields ++ more) between v') :
    scope.TellsSince document objectType (fields ++ more) v v' := by
  intro n hn
  rcases k n hn with hn | htells
  · exact (h n hn).imp id fun htells => htells.append more
  · exact Or.inr htells

end Tells

/-- Inlined selections repeat the fields that the selections come to.  The invariant is about the
fragments met before: those that can be met again have been told to the end. -/
theorem Flattens.repeats_append (hfragments : scope.fragments = document.fragments)
    (hacyclic : document.Acyclic) {v v' : List Name} {ss : List Selection} {fs : List Field}
    (h : scope.Flattens objectType v ss v' fs) :
    ∀ {base long : List Field}, Repeats document.inlineField base long →
      scope.TellsReached document objectType base v ss →
      Repeats document.inlineField (base ++ fs)
        (long ++ scope.ownFields objectType (document.inline ss)) ∧
      scope.TellsSince document objectType (base ++ fs) v v' := by
  induction h with
  | nil =>
      intro base long hrep _
      rw [List.append_nil]
      exact ⟨(List.append_nil long).symm ▸ hrep, fun n hn => Or.inl hn⟩
  | excluded hi _ ih =>
      intro base long hrep htold
      rw [ownFields_inline_cons, ownFields_inline_of_excluded hacyclic hi, List.nil_append]
      exact ih hrep htold.later
  | @field v _ f rest fs hi _ ih =>
      intro base long hrep htold
      obtain ⟨hrep', hsince⟩ := ih hrep.snoc (htold.later.append [f])
      rw [List.append_assoc] at hrep' hsince
      rw [ownFields_inline_cons, ownFields_inline_field document hi]
      exact ⟨by simpa using hrep', hsince⟩
  | @met v _ s rest fs hi hm _ ih =>
      intro base long hrep htold
      have hagain : scope.ownFields objectType (document.inline [.spread s]) ⊆
          base.map document.inlineField := by
        rw [ownFields_inline_spread hfragments hacyclic hi]
        match hx : scope.expansion? objectType s.fragment with
        | none => exact List.nil_subset _
        | some selections => exact htold _ hm (.spreads (.spread rfl)) selections hx
      rw [ownFields_inline_cons, ← List.append_assoc]
      exact ih (hrep.append_again hagain) htold.later
  | @barred v _ s rest fs hi hm hx _ ih =>
      intro base long hrep htold
      obtain ⟨hrep', hsince⟩ := ih hrep (htold.later.cons (.of_none hx))
      have hnone : scope.ownFields objectType (document.inline [.spread s]) = [] := by
        rw [ownFields_inline_spread hfragments hacyclic hi, hx]
      rw [ownFields_inline_cons, hnone, List.nil_append]
      exact ⟨hrep', hsince.drop (.of_none hx)⟩
  | @spread v between _ s rest selections fs fs' hi hm hx _ _ ih₁ ih₂ =>
      intro base long hrep htold
      obtain ⟨fragment, hget, hselections⟩ := exists_fragment_of_expansion? hx
      rw [hfragments] at hget
      subst hselections
      obtain ⟨hrep₁, hsince₁⟩ := ih₁ hrep (htold.within hacyclic hget)
      -- Beyond the fragment, all that it has to tell is told.
      have hspread : scope.Tells document objectType (base ++ fs) s.fragment := by
        intro selections hx'
        rw [hx, Option.some.injEq] at hx'
        subst hx'
        exact List.Subset.trans (List.subset_append_right _ _) hrep₁.subset
      have hsince := hsince₁.drop hspread
      obtain ⟨hrep₂, hsince₂⟩ := ih₂ hrep₁ (htold.later.after hsince)
      have hfields : scope.ownFields objectType (document.inline [.spread s]) =
          scope.ownFields objectType (document.inline fragment.selections) := by
        rw [ownFields_inline_spread hfragments hacyclic hi, hx]
      rw [ownFields_inline_cons, hfields, ← List.append_assoc, ← List.append_assoc]
      exact ⟨hrep₂, hsince.trans hsince₂⟩
  | @foreign v _ i rest fs hi ha _ ih =>
      intro base long hrep htold
      rw [ownFields_inline_cons, ownFields_inline_inlineFragment document hi, ha]
      exact ih hrep htold.later
  | @inline v between _ i rest fs fs' hi ha _ _ ih₁ ih₂ =>
      intro base long hrep htold
      obtain ⟨hrep₁, hsince₁⟩ := ih₁ hrep (htold.mono fun _ => .inline)
      obtain ⟨hrep₂, hsince₂⟩ := ih₂ hrep₁ (htold.later.after hsince₁)
      rw [ownFields_inline_cons, ownFields_inline_inlineFragment document hi, ha, if_pos rfl,
        ← List.append_assoc, ← List.append_assoc]
      exact ⟨hrep₂, hsince₁.trans hsince₂⟩

theorem Flattens.repeats (hfragments : scope.fragments = document.fragments)
    (hacyclic : document.Acyclic) {v : List Name} {ss : List Selection} {fs : List Field}
    (h : scope.Flattens objectType [] ss v fs) :
    Repeats document.inlineField fs (scope.ownFields objectType (document.inline ss)) := by
  obtain ⟨hrep, -⟩ := h.repeats_append hfragments hacyclic .nil nofun
  simpa using hrep

/-! ## Collection -/

/-- Selections that spread nothing, and repeat the fields of others once those are inlined. -/
structure Inlines (scope : Scope ω σ) (document : Document) (ss long : List Selection) : Prop where
  spreadFree : Selection.SpreadFree long
  repeats : ∀ objectType,
    Repeats id (scope.ownFields objectType (document.inline ss)) (scope.ownFields objectType long)

theorem inlines_inline (scope : Scope ω σ) (document : Document) (ss : List Selection) :
    scope.Inlines document ss (document.inline ss) :=
  ⟨document.spreadFree_inline ss, fun _ => .refl _⟩

/-- The groups of inlined selections are those of the selections, with fields that are repeated. -/
theorem Inlines.collect (hfragments : scope.fragments = document.fragments)
    (hacyclic : document.Acyclic) {ss long : List Selection} (h : scope.Inlines document ss long)
    (objectType : Name) (fragments : OrderedMap Fragment) :
    List.Forall₂ (FieldGroup.Retells document.inlineField) (scope.collect objectType ss)
      (Scope.collect { scope with fragments } objectType long) := by
  obtain ⟨visited, fields, hfields, heq⟩ := scope.collect_flattens objectType ss
  have hrep := (hfields.repeats hfragments hacyclic).trans (h.repeats objectType)
  have hkey : ∀ field : Field, (document.inlineField field).responseKey = field.responseKey :=
    fun _ => rfl
  rw [heq, collect_of_spreadFree _ _ h.spreadFree, ownFields_withFragments]
  exact hrep.groupFields hkey

/-- The selections of groups that retell each other are put together from the same fields. -/
theorem Inlines.of_retells {group long : FieldGroup}
    (h : group.Retells document.inlineField long) :
    scope.Inlines document group.selections long.selections where
  spreadFree := by
    refine Selection.spreadFree_flatMap ?_
    intro field hmem
    obtain ⟨original, -, rfl⟩ := List.mem_map.mp (h.mem_fields_iff.mp hmem)
    exact document.spreadFree_inline original.selections
  repeats objectType := by
    have hinline : document.inline group.selections =
        group.fields.flatMap (fun field => (document.inlineField field).selections) :=
      Selection.expandAll_flatMap document.inlineSpread FieldSelection.selections group.fields
    rw [hinline, FieldGroup.selections, ownFields_flatMap, ownFields_flatMap]
    exact h.fields.flatMap fun field => scope.ownFields objectType field.selections

end Scope

end GraphQLEngine
