/-
Lists that repeat another list, and the groups of repeated fields.

`Repeats f base long` says that `long` lists the images of `base` in order,
but may say again what it said before.  Grouping by response key does not
notice more than that: a repetition of fields has the same keys in the same
order, and the fields of each group are a repetition again
(`Repeats.groupFields`).
-/
import GraphQLEngine.Proofs.Collection
import Mathlib.Data.List.Forall2

namespace GraphQLEngine

variable {α β γ : Type} {f : α → β}

/-- The images of a list in order, with earlier ones between them that are said again. -/
inductive Repeats (f : α → β) : List α → List β → Prop
  | nil : Repeats f [] []
  | snoc {base : List α} {long : List β} {a : α} :
      Repeats f base long → Repeats f (base ++ [a]) (long ++ [f a])
  | again {base : List α} {long : List β} {a : α} :
      Repeats f base long → a ∈ base → Repeats f base (long ++ [f a])

namespace Repeats

variable {base : List α} {long : List β}

/-- Both lists go on with the same. -/
theorem append_map (h : Repeats f base long) (more : List α) :
    Repeats f (base ++ more) (long ++ more.map f) := by
  induction more generalizing base long with
  | nil => simpa using h
  | cons a rest ih => simpa using ih (h.snoc (a := a))

/-- The longer list goes on with what was said before. -/
theorem append_again (h : Repeats f base long) {more : List β} (hmore : more ⊆ base.map f) :
    Repeats f base (long ++ more) := by
  induction more generalizing long with
  | nil => simpa using h
  | cons b rest ih =>
      obtain ⟨hb, hrest⟩ := List.cons_subset.mp hmore
      obtain ⟨a, ha, rfl⟩ := List.mem_map.mp hb
      simpa using ih (h.again ha) hrest

protected theorem refl (l : List α) : Repeats id l l := by
  simpa using (Repeats.nil (f := id)).append_map l

theorem subset (h : Repeats f base long) : long ⊆ base.map f := by
  induction h with
  | nil => exact List.Subset.refl _
  | @snoc base long a _ ih =>
      rw [List.map_append, List.map_singleton]
      refine List.append_subset.mpr ⟨?_, List.subset_append_right _ _⟩
      exact List.Subset.trans ih (List.subset_append_left _ _)
  | @again base long a _ ha ih =>
      refine List.append_subset.mpr ⟨ih, ?_⟩
      exact List.cons_subset.mpr ⟨List.mem_map_of_mem ha, List.nil_subset _⟩

theorem map_subset (h : Repeats f base long) : base.map f ⊆ long := by
  induction h with
  | nil => exact List.Subset.refl _
  | @snoc base long a _ ih =>
      rw [List.map_append, List.map_singleton]
      refine List.append_subset.mpr ⟨?_, List.subset_append_right _ _⟩
      exact List.Subset.trans ih (List.subset_append_left _ _)
  | again _ _ ih => exact List.Subset.trans ih (List.subset_append_left _ _)

/-- Nothing is said before the first member. -/
theorem head?_eq (h : Repeats f base long) : long.head? = base.head?.map f := by
  induction h with
  | nil => rfl
  | @snoc base long a _ ih =>
      rw [List.head?_append, List.head?_append, ih]
      cases base.head? with
      | none => rfl
      | some _ => rfl
  | @again base long a _ ha ih =>
      rw [List.head?_append, ih]
      match base, ha with
      | _ :: _, _ => rfl

/-- The last thing that is said is new, or was said before. -/
theorem snoc_cases {b : β} (h : Repeats f base (long ++ [b])) :
    (∃ earlier a, base = earlier ++ [a] ∧ b = f a ∧ Repeats f earlier long) ∨
      (∃ a ∈ base, b = f a ∧ Repeats f base long) := by
  generalize hl : long ++ [b] = l at h
  cases h with
  | nil => simp at hl
  | @snoc earlier long' a h =>
      obtain ⟨rfl, heq⟩ := List.append_inj' hl rfl
      exact Or.inl ⟨earlier, a, rfl, List.singleton_inj.mp heq, h⟩
  | @again _ long' a h ha =>
      obtain ⟨rfl, heq⟩ := List.append_inj' hl rfl
      exact Or.inr ⟨a, ha, List.singleton_inj.mp heq, h⟩

theorem trans {longer : List β} (h : Repeats f base long) (k : Repeats id long longer) :
    Repeats f base longer := by
  induction k generalizing base with
  | nil => exact h
  | @snoc long longer b _ ih =>
      rcases h.snoc_cases with ⟨earlier, a, rfl, rfl, hearlier⟩ | ⟨a, ha, rfl, hbefore⟩
      · exact (ih hearlier).snoc
      · exact (ih hbefore).again ha
  | @again long longer b _ hb ih =>
      obtain ⟨a, ha, rfl⟩ := List.mem_map.mp (h.subset hb)
      exact (ih h).again ha

/-- Lists that stand for the members repeat each other in the same way. -/
theorem flatMap (h : Repeats f base long) (g : β → List γ) :
    Repeats id (base.flatMap fun a => g (f a)) (long.flatMap g) := by
  induction h with
  | nil => exact .nil
  | @snoc base long a _ ih =>
      simpa using ih.append_map (g (f a))
  | @again base long a _ ha ih =>
      have hsub : g (f a) ⊆ (base.flatMap fun a => g (f a)).map id := by
        intro c hc
        rw [List.map_id]
        exact List.mem_flatMap.mpr ⟨a, ha, hc⟩
      simpa using ih.append_again hsub

end Repeats

/-! ## Groups -/

/-- A field is in the group of its key. -/
def Field.GroupedIn (field : Field) (groups : List FieldGroup) : Prop :=
  ∃ g, groups.find? (fun g => g.key = field.responseKey) = some g ∧ field ∈ g.fields

namespace Field.GroupedIn

variable {field other : Field} {groups : List FieldGroup}

theorem add_self (field : Field) :
    ∀ groups, Field.GroupedIn field (addToGroups field groups)
  | [] => ⟨_, List.find?_cons_of_pos (by simp), List.mem_cons_self⟩
  | g :: rest => by
      rw [addToGroups]
      by_cases hkey : g.key = field.responseKey
      · rw [if_pos hkey]
        exact ⟨_, List.find?_cons_of_pos (by simpa using hkey), by simp [FieldGroup.fields]⟩
      · obtain ⟨found, hfound, hmem⟩ := add_self field rest
        rw [if_neg hkey]
        exact ⟨found, by rw [List.find?_cons_of_neg (by simpa using hkey), hfound], hmem⟩

theorem add (h : Field.GroupedIn field groups) :
    Field.GroupedIn field (addToGroups other groups) := by
  obtain ⟨found, hfound, hmem⟩ := h
  induction groups with
  | nil => cases hfound
  | cons g rest ih =>
      rw [addToGroups]
      by_cases hkey : g.key = field.responseKey
      · rw [List.find?_cons_of_pos (by simpa using hkey)] at hfound
        obtain rfl : g = found := Option.some.inj hfound
        by_cases hother : g.key = other.responseKey
        · rw [if_pos hother]
          refine ⟨_, List.find?_cons_of_pos (by simpa using hkey), ?_⟩
          exact List.mem_append_left [other] hmem
        · rw [if_neg hother]
          exact ⟨g, List.find?_cons_of_pos (by simpa using hkey), hmem⟩
      · rw [List.find?_cons_of_neg (by simpa using hkey)] at hfound
        by_cases hother : g.key = other.responseKey
        · rw [if_pos hother]
          exact ⟨found, by rw [List.find?_cons_of_neg (by simpa using hkey), hfound], hmem⟩
        · obtain ⟨found', hfound', hmem'⟩ := ih hfound
          rw [if_neg hother]
          exact ⟨found', by rw [List.find?_cons_of_neg (by simpa using hkey), hfound'], hmem'⟩

theorem group (h : Field.GroupedIn field groups) :
    ∀ fields, Field.GroupedIn field (groupFields fields groups) := by
  intro fields
  induction fields generalizing groups with
  | nil => exact h
  | cons other rest ih => exact ih h.add

theorem of_mem {fields : List Field} (h : field ∈ fields) (groups : List FieldGroup) :
    Field.GroupedIn field (groupFields fields groups) := by
  obtain ⟨before, after, rfl⟩ := List.append_of_mem h
  rw [groupFields_append]
  exact (add_self field _).group after

end Field.GroupedIn

/-- Groups with one key, the fields of one being a repetition of those of the other. -/
structure FieldGroup.Retells (f : Field → Field) (group long : FieldGroup) : Prop where
  key : long.key = group.key
  fields : Repeats f group.fields long.fields

namespace FieldGroup.Retells

variable {f : Field → Field} {group long : FieldGroup}

theorem first (h : group.Retells f long) : long.first = f group.first :=
  Option.some.inj h.fields.head?_eq

/-- The fields of one group and the images of those of the other are the same, apart from order. -/
theorem mem_fields_iff (h : group.Retells f long) {field : Field} :
    field ∈ long.fields ↔ field ∈ group.fields.map f :=
  ⟨fun hmem => h.fields.subset hmem, fun hmem => h.fields.map_subset hmem⟩

theorem mem_locations_iff (hlocation : ∀ field, (f field).location = field.location)
    (h : group.Retells f long) {l : Location} : l ∈ long.locations ↔ l ∈ group.locations := by
  simp only [locations, List.mem_filterMap, h.mem_fields_iff, List.mem_map, exists_exists_and_eq_and,
    hlocation]

end FieldGroup.Retells

section Retells

variable {f : Field → Field} {field : Field} {groups longs : List FieldGroup}

/-- The same field is added on both sides. -/
theorem retells_addToGroups (hkey : (f field).responseKey = field.responseKey)
    (h : List.Forall₂ (FieldGroup.Retells f) groups longs) :
    List.Forall₂ (FieldGroup.Retells f) (addToGroups field groups) (addToGroups (f field) longs) := by
  induction h with
  | nil => exact .cons ⟨hkey, Repeats.nil.snoc⟩ .nil
  | @cons g g' _ _ hg hrest ih =>
      rw [addToGroups, addToGroups, hg.key, hkey]
      split
      · exact .cons ⟨rfl, hg.fields.snoc⟩ hrest
      · exact .cons hg ih

/-- A field is added once more on one side. -/
theorem retells_addToGroups_again (hkey : (f field).responseKey = field.responseKey)
    (h : List.Forall₂ (FieldGroup.Retells f) groups longs) (hin : field.GroupedIn groups) :
    List.Forall₂ (FieldGroup.Retells f) groups (addToGroups (f field) longs) := by
  obtain ⟨found, hfound, hmem⟩ := hin
  induction h with
  | nil => cases hfound
  | @cons g g' _ _ hg hrest ih =>
      rw [addToGroups, hg.key, hkey]
      by_cases hgroup : g.key = field.responseKey
      · rw [List.find?_cons_of_pos (by simpa using hgroup)] at hfound
        cases hfound
        rw [if_pos hgroup]
        exact .cons ⟨rfl, hg.fields.again hmem⟩ hrest
      · rw [List.find?_cons_of_neg (by simpa using hgroup)] at hfound
        rw [if_neg hgroup]
        exact .cons hg (ih hfound)

/-- The groups of a repetition of fields retell the groups of the fields. -/
theorem Repeats.groupFields (hkey : ∀ field, (f field).responseKey = field.responseKey)
    {fields long : List Field} (h : Repeats f fields long) :
    List.Forall₂ (FieldGroup.Retells f) (groupFields fields []) (groupFields long []) := by
  induction h with
  | nil => exact .nil
  | snoc _ ih =>
      rw [groupFields_append, groupFields_append]
      exact retells_addToGroups (hkey _) ih
  | again _ ha ih =>
      rw [groupFields_append]
      exact retells_addToGroups_again (hkey _) ih (.of_mem ha [])

end Retells

end GraphQLEngine
