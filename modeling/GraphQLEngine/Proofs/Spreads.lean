/-
Which fragments selections reach by spreads, and how deep they can lead.

A document is acyclic if no fragment reaches itself, by its own spreads or by
those of the fragments that it spreads.  What selections reach shrinks on every
way through a fragment, and this bounds sums over the fragments that are still
ahead (`Selection.ahead_spread`).  Selection sets in the data of an acyclic document
therefore nest no deeper than its `depthBound` (`nesting_add_ahead_le_depthBound`).
-/
import GraphQLEngine.Proofs.Collection
import GraphQLEngine.Request.Basic
import GraphQLEngine.Request.Error

namespace GraphQLEngine

/-! ## Reaching -/

/-- A name is spread within selections, however deep. -/
inductive Selection.Spreads (name : Name) : List Selection → Prop
  | spread {s : FragmentSpread} {rest : List Selection} :
      s.fragment = name → Spreads name (.spread s :: rest)
  | field {f : Field} {rest : List Selection} :
      Spreads name f.selections → Spreads name (.field f :: rest)
  | inline {i : InlineFragment Selection} {rest : List Selection} :
      Spreads name i.selections → Spreads name (.inlineFragment i :: rest)
  | later {s : Selection} {rest : List Selection} : Spreads name rest → Spreads name (s :: rest)

/-- A name is spread within selections, or within a fragment that they reach. -/
inductive Selection.Reaches (fragments : OrderedMap Fragment) (name : Name) : List Selection → Prop
  | spreads {ss : List Selection} : Selection.Spreads name ss → Reaches fragments name ss
  | through {ss : List Selection} {other : Name} {fragment : Fragment} :
      Selection.Spreads other ss → fragments.get? other = some fragment →
      Reaches fragments name fragment.selections → Reaches fragments name ss

/-- No fragment reaches itself. -/
def Document.Acyclic (document : Document) : Prop :=
  ∀ name fragment, document.fragments.get? name = some fragment →
    ¬ Selection.Reaches document.fragments name fragment.selections

namespace Selection

variable {fragments : OrderedMap Fragment} {name : Name} {ss ts : List Selection}

theorem Reaches.mono (h : Reaches fragments name ss)
    (hsub : ∀ other, Spreads other ss → Spreads other ts) : Reaches fragments name ts := by
  cases h with
  | spreads h => exact .spreads (hsub _ h)
  | through h hget hreach => exact .through (hsub _ h) hget hreach

theorem Spreads.of_mem {s : Selection} (h : Spreads name [s]) : ∀ {ss : List Selection}, s ∈ ss →
    Spreads name ss
  | _ :: rest, hmem => by
      rcases List.mem_cons.mp hmem with rfl | hmem
      · cases h with
        | spread heq => exact .spread heq
        | field h => exact .field h
        | inline h => exact .inline h
        | later h => cases h
      · exact .later (h.of_mem hmem)

/-- Whatever is spread within selections is spread within one of them. -/
theorem Spreads.exists_mem (h : Spreads name ss) : ∃ s ∈ ss, Spreads name [s] := by
  induction h with
  | spread heq => exact ⟨_, List.mem_cons_self, .spread heq⟩
  | field h _ => exact ⟨_, List.mem_cons_self, .field h⟩
  | inline h _ => exact ⟨_, List.mem_cons_self, .inline h⟩
  | later _ ih =>
      obtain ⟨s, hs, h⟩ := ih
      exact ⟨s, List.mem_cons_of_mem _ hs, h⟩

theorem Reaches.exists_mem (h : Reaches fragments name ss) : ∃ s ∈ ss, Reaches fragments name [s] := by
  cases h with
  | spreads h =>
      obtain ⟨s, hs, h⟩ := h.exists_mem
      exact ⟨s, hs, .spreads h⟩
  | through h hget hreach =>
      obtain ⟨s, hs, h⟩ := h.exists_mem
      exact ⟨s, hs, .through h hget hreach⟩

/-- What is reached within a fragment that is reached is reached itself. -/
theorem Reaches.trans {other : Name} {fragment : Fragment} (h : Reaches fragments other ss)
    (hget : fragments.get? other = some fragment)
    (hreach : Reaches fragments name fragment.selections) : Reaches fragments name ss := by
  induction h with
  | spreads h => exact .through h hget hreach
  | through h hfragment _ ih => exact .through h hfragment ih

/-! ## Sums over the fragments ahead -/

/-- A sum over the fragments of a document. -/
def total (weight : String × Fragment → Nat) (fragments : OrderedMap Fragment) : Nat :=
  fragments.foldr (fun e n => weight e + n) 0

theorem total_le_total {weight weight' : String × Fragment → Nat} :
    ∀ {fragments : OrderedMap Fragment}, (∀ e ∈ fragments, weight e ≤ weight' e) →
      total weight fragments ≤ total weight' fragments
  | [], _ => Nat.le_refl _
  | _ :: _, h => by
      obtain ⟨hfirst, hrest⟩ := List.forall_mem_cons.mp h
      exact Nat.add_le_add hfirst (total_le_total hrest)

theorem add_total_le_total {weight weight' : String × Fragment → Nat} {entry : String × Fragment}
    {more : Nat} (hmore : more + weight entry ≤ weight' entry) :
    ∀ {fragments : OrderedMap Fragment}, entry ∈ fragments → (∀ e ∈ fragments, weight e ≤ weight' e) →
      more + total weight fragments ≤ total weight' fragments
  | _ :: _, hmem, h => by
      obtain ⟨hfirst, hrest⟩ := List.forall_mem_cons.mp h
      rcases List.mem_cons.mp hmem with rfl | hmem
      · have hle := Nat.add_le_add hmore (total_le_total hrest)
        rwa [Nat.add_assoc] at hle
      · have hle := Nat.add_le_add hfirst (add_total_le_total hmore hmem hrest)
        rwa [Nat.add_left_comm] at hle

open scoped Classical in
/-- The sum over the fragments that selections reach. -/
noncomputable def ahead (fragments : OrderedMap Fragment) (weight : Fragment → Nat)
    (ss : List Selection) : Nat :=
  total (fun e => if Reaches fragments e.1 ss then weight e.2 else 0) fragments

theorem ahead_le_total (fragments : OrderedMap Fragment) (weight : Fragment → Nat)
    (ss : List Selection) : ahead fragments weight ss ≤ total (fun e => weight e.2) fragments := by
  refine total_le_total ?_
  intro e _
  split
  · exact Nat.le_refl _
  · exact Nat.zero_le _

theorem ahead_mono (fragments : OrderedMap Fragment) (weight : Fragment → Nat)
    (hsub : ∀ other, Spreads other ss → Spreads other ts) :
    ahead fragments weight ss ≤ ahead fragments weight ts := by
  refine total_le_total ?_
  intro e _
  by_cases h : Reaches fragments e.1 ss
  · simp only [if_pos h, if_pos (h.mono hsub), Nat.le_refl]
  · rw [if_neg h]
    exact Nat.zero_le _

/-- Within a fragment of an acyclic document, the fragment itself is no longer ahead. -/
theorem ahead_spread {document : Document} (hacyclic : document.Acyclic) (weight : Fragment → Nat)
    {s : FragmentSpread} {fragment : Fragment}
    (hget : document.fragments.get? s.fragment = some fragment) :
    weight fragment + ahead document.fragments weight fragment.selections ≤
      ahead document.fragments weight [.spread s] := by
  have hhere : Reaches document.fragments s.fragment [.spread s] := .spreads (.spread rfl)
  refine add_total_le_total ?_ (OrderedMap.mem_of_get? hget) ?_
  · simp only [if_neg (hacyclic _ _ hget), if_pos hhere, Nat.add_zero, Nat.le_refl]
  · intro e _
    by_cases h : Reaches document.fragments e.1 fragment.selections
    · have hthrough : Reaches document.fragments e.1 [.spread s] := .through (.spread rfl) hget h
      simp only [if_pos h, if_pos hthrough, Nat.le_refl]
    · rw [if_neg h]
      exact Nat.zero_le _

/-! ## Depth -/

/-- How deep selection sets can nest below selections, through all fragments that are ahead. -/
noncomputable def depthAhead (fragments : OrderedMap Fragment) (ss : List Selection) : Nat :=
  ahead fragments (fun fragment => nestingOf fragment.selections) ss

/-- How deep selection sets can nest within a selection, fragments included. -/
noncomputable def reach (fragments : OrderedMap Fragment) (s : Selection) : Nat :=
  s.nesting + depthAhead fragments [s]

theorem nesting_le_nestingOf {s : Selection} :
    ∀ {ss : List Selection}, s ∈ ss → s.nesting ≤ nestingOf ss
  | _ :: _, hmem => by
      rw [nestingOf]
      rcases List.mem_cons.mp hmem with rfl | hmem
      · exact Nat.le_max_left _ _
      · exact Nat.le_trans (nesting_le_nestingOf hmem) (Nat.le_max_right _ _)

theorem reach_lt_of_mem_field {f : Field} {s : Selection} (hmem : s ∈ f.selections) :
    s.reach fragments < (Selection.field f).reach fragments := by
  have hsub : ∀ other, Spreads other [s] → Spreads other [.field f] := fun _ h => .field (h.of_mem hmem)
  have hahead : depthAhead fragments [s] ≤ depthAhead fragments [.field f] := ahead_mono _ _ hsub
  have hnesting := nesting_le_nestingOf hmem
  rw [reach, reach, nesting]
  omega

theorem reach_le_of_mem_inline {i : InlineFragment Selection} {s : Selection}
    (hmem : s ∈ i.selections) :
    s.reach fragments ≤ (Selection.inlineFragment i).reach fragments := by
  have hsub : ∀ other, Spreads other [s] → Spreads other [.inlineFragment i] :=
    fun _ h => .inline (h.of_mem hmem)
  have hahead : depthAhead fragments [s] ≤ depthAhead fragments [.inlineFragment i] :=
    ahead_mono _ _ hsub
  have hnesting := nesting_le_nestingOf hmem
  rw [reach, reach, nesting]
  omega

theorem reach_le_of_mem_fragment {document : Document} (hacyclic : document.Acyclic)
    {spread : FragmentSpread} {fragment : Fragment}
    (hget : document.fragments.get? spread.fragment = some fragment) {s : Selection}
    (hmem : s ∈ fragment.selections) :
    s.reach document.fragments ≤ (Selection.spread spread).reach document.fragments := by
  have hsub : ∀ other, Spreads other [s] → Spreads other fragment.selections := fun _ h => h.of_mem hmem
  have hahead : depthAhead document.fragments [s] ≤ depthAhead document.fragments fragment.selections :=
    ahead_mono _ _ hsub
  have hspread : nestingOf fragment.selections + depthAhead document.fragments fragment.selections ≤
      depthAhead document.fragments [.spread spread] :=
    ahead_spread hacyclic (fun fragment => nestingOf fragment.selections) hget
  have hnesting := nesting_le_nestingOf hmem
  rw [reach, reach, nesting]
  omega

end Selection

namespace Document

variable {document : Document} {operation : Operation}

theorem mem_of_selectOperation {name? : Option Name}
    (h : document.selectOperation name? = .ok operation) : operation ∈ document.operations := by
  match name? with
  | some name =>
      rw [selectOperation] at h
      split at h
      · cases h
        exact List.mem_of_find?_eq_some ‹_›
      · cases h
  | none =>
      rw [selectOperation] at h
      split at h
      · cases h
      · cases h
        rw [‹document.operations = _›]
        exact List.mem_singleton_self _
      · cases h

theorem nestingOf_le_foldr : ∀ {operations : List Operation}, operation ∈ operations →
    Selection.nestingOf operation.selections ≤
      operations.foldr (fun op n => Selection.nestingOf op.selections + n) 0
  | _ :: _, hmem => by
      rw [List.foldr_cons]
      rcases List.mem_cons.mp hmem with rfl | hmem
      · exact Nat.le_add_right _ _
      · exact Nat.le_add_left_of_le (nestingOf_le_foldr hmem)

/-- The selections of an operation lead no deeper than the bound of its document. -/
theorem reach_le_depthBound (hmem : operation ∈ document.operations) {s : Selection}
    (hs : s ∈ operation.selections) : s.reach document.fragments ≤ document.depthBound := by
  have hfragments : Selection.depthAhead document.fragments [s] ≤
      document.fragments.foldr (fun f n => Selection.nestingOf f.2.selections + n) 0 :=
    Selection.ahead_le_total _ _ _
  have hnesting := Selection.nesting_le_nestingOf hs
  have hdocument := nestingOf_le_foldr hmem
  rw [Selection.reach, Document.depthBound]
  omega

end Document

namespace Scope

variable {ω σ : Type} {scope : Scope ω σ} {objectType : Name} {document : Document}

theorem exists_fragment_of_expansion? {name : Name} {ss : List Selection}
    (h : scope.expansion? objectType name = some ss) :
    ∃ fragment, scope.fragments.get? name = some fragment ∧ fragment.selections = ss := by
  rw [expansion?] at h
  split at h
  · cases h
  · split at h
    · cases h
      exact ⟨_, ‹_›, rfl⟩
    · cases h

/-- Flattening does not lead any deeper. -/
theorem Flattens.reach_le (hfragments : scope.fragments = document.fragments)
    (hacyclic : document.Acyclic) {above depth : Nat} {v v' : List Name} {ss : List Selection}
    {fs : List Field} (h : scope.Flattens objectType v ss v' fs)
    (hss : ∀ s ∈ ss, above + s.reach document.fragments ≤ depth) :
    ∀ f ∈ fs, above + (Selection.field f).reach document.fragments ≤ depth := by
  induction h with
  | nil => exact nofun
  | excluded _ _ ih => exact ih (List.forall_mem_cons.mp hss).2
  | field _ _ ih =>
      obtain ⟨hf, hrest⟩ := List.forall_mem_cons.mp hss
      exact List.forall_mem_cons.mpr ⟨hf, ih hrest⟩
  | met _ _ _ ih => exact ih (List.forall_mem_cons.mp hss).2
  | barred _ _ _ _ ih => exact ih (List.forall_mem_cons.mp hss).2
  | spread _ _ hx _ _ ih₁ ih₂ =>
      obtain ⟨hs, hrest⟩ := List.forall_mem_cons.mp hss
      obtain ⟨fragment, hget, rfl⟩ := exists_fragment_of_expansion? hx
      rw [hfragments] at hget
      have hwithin := ih₁ fun s hmem =>
        Nat.le_trans (Nat.add_le_add_left (Selection.reach_le_of_mem_fragment hacyclic hget hmem) _) hs
      exact List.forall_mem_append.mpr ⟨hwithin, ih₂ hrest⟩
  | foreign _ _ _ ih => exact ih (List.forall_mem_cons.mp hss).2
  | inline _ _ _ _ ih₁ ih₂ =>
      obtain ⟨hi, hrest⟩ := List.forall_mem_cons.mp hss
      have hwithin := ih₁ fun s hmem =>
        Nat.le_trans (Nat.add_le_add_left (Selection.reach_le_of_mem_inline hmem) _) hi
      exact List.forall_mem_append.mpr ⟨hwithin, ih₂ hrest⟩

end Scope

end GraphQLEngine
