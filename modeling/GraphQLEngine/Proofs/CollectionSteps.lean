/-
Collection ends, whatever fragments spread each other.

`Scope.collectStep` takes collection one selection at a time, with the selection
lists that are open on a stack, and no bound on how deep named fragments nest.  A
step loses weight (`collectStep_stepsLeft`): the selections that are open and those
of the fragments not met yet weigh less after it, since a fragment is met before
its selections are opened.  So there are at most as many steps as there are
selections and ends of lists in the text.  `collectWithin_reached` ties the steps to
`Scope.collectWithin`: the depth that collection allows itself is never used up.
-/
import GraphQLEngine.Proofs.Spreads

namespace GraphQLEngine

variable {ω σ : Type}

/-- Collection under way. -/
structure Collecting where
  /-- What is left of the selection lists that are open, the innermost first. -/
  pending : List (List Selection)
  collected : Collected
  /-- The fragments that were expanded, the last one first. -/
  expanded : List Name

mutual

/-- How many steps a selection can take by itself. -/
def Selection.steps : Selection → Nat
  | .field _ => 1
  | .spread _ => 1
  | .inlineFragment ⟨_, _, selections, _⟩ => Selection.stepsOf selections + 1

/-- How many steps a selection list can take by itself, its end included. -/
def Selection.stepsOf : List Selection → Nat
  | [] => 1
  | s :: rest => s.steps + Selection.stepsOf rest

end

namespace Scope

/-! ## Steps -/

/-- Opens a named fragment if it is met for the first time, defined, and applies. -/
def openFragment (scope : Scope ω σ) (objectType name : Name) (c : Collecting) : Collecting :=
  if name ∈ c.collected.visited then c
  else
    let met : Collected := { c.collected with visited := name :: c.collected.visited }
    match scope.expansion? objectType name with
    | none => { c with collected := met }
    | some selections => ⟨selections :: c.pending, met, name :: c.expanded⟩

/-- Takes in a selection that is not left out. -/
def takeSelection (scope : Scope ω σ) (objectType : Name) (c : Collecting) : Selection → Collecting
  | .field f => { c with collected.groups := addToGroups f c.collected.groups }
  | .spread s => scope.openFragment objectType s.fragment c
  | .inlineFragment i =>
    if scope.applies objectType i.typeCondition then { c with pending := i.selections :: c.pending }
    else c

/-- Takes the next selection, or closes a list that has come to its end. -/
def collectStep (scope : Scope ω σ) (objectType : Name) (c : Collecting) : Option Collecting :=
  match c.pending with
  | [] => none
  | [] :: outer => some { c with pending := outer }
  | (s :: rest) :: outer =>
    let c' := { c with pending := rest :: outer }
    some (if s.isIncluded scope.bindings then scope.takeSelection objectType c' s else c')

/-- Takes a number of steps, all of which there must be. -/
def collectSteps (scope : Scope ω σ) (objectType : Name) : Nat → Collecting → Option Collecting
  | 0, c => some c
  | n + 1, c => (scope.collectStep objectType c).bind (scope.collectSteps objectType n)

variable {scope : Scope ω σ} {objectType : Name} {c c' c'' : Collecting}

theorem collectSteps_trans : ∀ {n m : Nat} {c : Collecting},
    scope.collectSteps objectType n c = some c' → scope.collectSteps objectType m c' = some c'' →
      scope.collectSteps objectType (n + m) c = some c''
  | 0, m, c, h, h' => by
      cases h
      rwa [Nat.zero_add]
  | n + 1, m, c, h, h' => by
      obtain ⟨next, hstep, hrest⟩ := Option.bind_eq_some_iff.mp h
      rw [Nat.add_right_comm, collectSteps, hstep]
      exact collectSteps_trans hrest h'

/-- What every step keeps, all steps keep. -/
theorem collectSteps_preserves {P : Collecting → Prop}
    (hstep : ∀ {c c' : Collecting}, scope.collectStep objectType c = some c' → P c → P c') :
    ∀ {n : Nat} {c : Collecting}, scope.collectSteps objectType n c = some c' → P c → P c'
  | 0, c, h, hc => by
      cases h
      exact hc
  | n + 1, c, h, hc => by
      obtain ⟨next, hnext, hrest⟩ := Option.bind_eq_some_iff.mp h
      exact collectSteps_preserves hstep hrest (hstep hnext hc)

/-- A step closes a list, leaves a selection out, or takes one in. -/
theorem collectStep_cases (h : scope.collectStep objectType c = some c') :
    (∃ outer, c.pending = [] :: outer ∧ c' = { c with pending := outer }) ∨
    (∃ s rest outer, c.pending = (s :: rest) :: outer ∧ s.isIncluded scope.bindings = false ∧
      c' = { c with pending := rest :: outer }) ∨
    (∃ s rest outer, c.pending = (s :: rest) :: outer ∧ s.isIncluded scope.bindings = true ∧
      c' = scope.takeSelection objectType { c with pending := rest :: outer } s) := by
  rw [collectStep] at h
  split at h
  · cases h
  · next outer hp =>
      cases h
      exact Or.inl ⟨outer, hp, rfl⟩
  · next s rest outer hp =>
      cases hi : s.isIncluded scope.bindings with
      | false =>
          simp only [hi] at h
          cases h
          exact Or.inr (Or.inl ⟨s, rest, outer, hp, hi, rfl⟩)
      | true =>
          simp only [hi, if_true] at h
          cases h
          exact Or.inr (Or.inr ⟨s, rest, outer, hp, hi, rfl⟩)

/-- A spread leaves things as they are, or notes its name, and then opens what stands behind it. -/
theorem openFragment_cases (scope : Scope ω σ) (objectType name : Name) (c : Collecting) :
    (name ∈ c.collected.visited ∧ scope.openFragment objectType name c = c) ∨
    (name ∉ c.collected.visited ∧ scope.expansion? objectType name = none ∧
      scope.openFragment objectType name c =
        { c with collected.visited := name :: c.collected.visited }) ∨
    (name ∉ c.collected.visited ∧ ∃ selections, scope.expansion? objectType name = some selections ∧
      scope.openFragment objectType name c =
        ⟨selections :: c.pending, { c.collected with visited := name :: c.collected.visited },
          name :: c.expanded⟩) := by
  rw [openFragment]
  by_cases hm : name ∈ c.collected.visited
  · exact Or.inl ⟨hm, if_pos hm⟩
  · rw [if_neg hm]
    cases hx : scope.expansion? objectType name with
    | none => exact Or.inr (Or.inl ⟨hm, rfl, rfl⟩)
    | some selections => exact Or.inr (Or.inr ⟨hm, selections, rfl, rfl⟩)

/-! ## Each step loses weight -/

/-- The weight of a fragment: nothing once it was met. -/
def unmetWeight (visited : List Name) (e : String × Fragment) : Nat :=
  if e.1 ∈ visited then 0 else Selection.stepsOf e.2.selections

/-- The weight of the fragments that were not met yet. -/
def unmetSteps (scope : Scope ω σ) (visited : List Name) : Nat :=
  Selection.total (unmetWeight visited) scope.fragments

/-- An upper bound for the steps that are left. -/
def stepsLeft (scope : Scope ω σ) (c : Collecting) : Nat :=
  c.pending.foldr (fun ss n => Selection.stepsOf ss + n) 0 + scope.unmetSteps c.collected.visited

theorem unmetWeight_cons_le (name : Name) (visited : List Name) (e : String × Fragment) :
    unmetWeight (name :: visited) e ≤ unmetWeight visited e := by
  by_cases he : e.1 ∈ visited
  · simp [unmetWeight, he]
  · simp only [unmetWeight, if_neg he]
    split
    · exact Nat.zero_le _
    · exact Nat.le_refl _

theorem unmetSteps_cons_le (name : Name) (visited : List Name) :
    scope.unmetSteps (name :: visited) ≤ scope.unmetSteps visited :=
  Selection.total_le_total fun e _ => unmetWeight_cons_le name visited e

/-- What stands behind a spread is paid for by the fragment that is met there. -/
theorem stepsOf_add_unmetSteps_le {name : Name} {visited : List Name} {selections : List Selection}
    (hnew : name ∉ visited) (hx : scope.expansion? objectType name = some selections) :
    Selection.stepsOf selections + scope.unmetSteps (name :: visited) ≤ scope.unmetSteps visited := by
  obtain ⟨fragment, hget, rfl⟩ := exists_fragment_of_expansion? hx
  have hpaid : Selection.stepsOf fragment.selections + unmetWeight (name :: visited) (name, fragment) ≤
      unmetWeight visited (name, fragment) :=
    Nat.le_of_eq (by simp [unmetWeight, hnew])
  exact Selection.add_total_le_total hpaid (OrderedMap.mem_of_get? hget)
    fun e _ => unmetWeight_cons_le name visited e

theorem takeSelection_stepsLeft (s : Selection) (c : Collecting) :
    scope.stepsLeft (scope.takeSelection objectType c s) + 1 ≤ s.steps + scope.stepsLeft c := by
  cases s with
  | field f => exact Nat.le_of_eq (Nat.add_comm _ _)
  | spread s =>
      rw [takeSelection, Selection.steps, Nat.add_comm 1]
      refine Nat.succ_le_succ ?_
      rcases scope.openFragment_cases objectType s.fragment c with
        ⟨_, h⟩ | ⟨_, _, h⟩ | ⟨hnew, selections, hx, h⟩
      · exact Nat.le_of_eq (congrArg scope.stepsLeft h)
      · rw [h]
        exact Nat.add_le_add_left (unmetSteps_cons_le _ _) _
      · rw [h]
        have hpaid := stepsOf_add_unmetSteps_le hnew hx
        simp only [stepsLeft, List.foldr_cons]
        omega
  | inlineFragment i =>
      obtain ⟨condition, directives, selections, location⟩ := i
      simp only [takeSelection, Selection.steps]
      split
      · simp only [stepsLeft, List.foldr_cons]
        omega
      · omega

theorem steps_pos (s : Selection) : 1 ≤ s.steps := by
  rcases s with _ | _ | ⟨_, _, _, _⟩
  · exact Nat.le_refl _
  · exact Nat.le_refl _
  · exact Nat.succ_le_succ (Nat.zero_le _)

/-- A step takes away from the steps that are left. -/
theorem collectStep_stepsLeft (h : scope.collectStep objectType c = some c') :
    scope.stepsLeft c' + 1 ≤ scope.stepsLeft c := by
  rcases collectStep_cases h with
    ⟨outer, hp, rfl⟩ | ⟨s, rest, outer, hp, _, rfl⟩ | ⟨s, rest, outer, hp, _, rfl⟩
  · simp only [stepsLeft, hp, List.foldr_cons, Selection.stepsOf]
    omega
  · have hpos := steps_pos s
    simp only [stepsLeft, hp, List.foldr_cons, Selection.stepsOf]
    omega
  · refine Nat.le_trans (takeSelection_stepsLeft s _) ?_
    simp only [stepsLeft, hp, List.foldr_cons, Selection.stepsOf]
    omega

theorem collectSteps_stepsLeft : ∀ {n : Nat} {c : Collecting},
    scope.collectSteps objectType n c = some c' → scope.stepsLeft c' + n ≤ scope.stepsLeft c
  | 0, c, h => by
      cases h
      exact Nat.le_refl _
  | n + 1, c, h => by
      obtain ⟨next, hnext, hrest⟩ := Option.bind_eq_some_iff.mp h
      have hstep := collectStep_stepsLeft hnext
      have hsteps := collectSteps_stepsLeft hrest
      omega

/-! ## Each fragment is expanded once -/

/-- The fragments that were expanded are distinct, and were met since the start. -/
structure ExpandsOnce (visited : List Name) (c : Collecting) : Prop where
  nodup : c.expanded.Nodup
  met : c.expanded ⊆ c.collected.visited
  fresh : ∀ name ∈ c.expanded, name ∉ visited
  kept : visited ⊆ c.collected.visited

theorem takeSelection_expandsOnce {visited : List Name} (s : Selection)
    (hc : ExpandsOnce visited c) : ExpandsOnce visited (scope.takeSelection objectType c s) := by
  cases s with
  | field f => exact ⟨hc.nodup, hc.met, hc.fresh, hc.kept⟩
  | spread s =>
      rw [takeSelection]
      rcases scope.openFragment_cases objectType s.fragment c with
        ⟨_, h⟩ | ⟨_, _, h⟩ | ⟨hnew, selections, _, h⟩
      · rw [h]
        exact hc
      · rw [h]
        exact ⟨hc.nodup, fun n hn => List.mem_cons_of_mem _ (hc.met hn), hc.fresh,
          fun n hn => List.mem_cons_of_mem _ (hc.kept hn)⟩
      · rw [h]
        exact ⟨List.nodup_cons.mpr ⟨fun hm => hnew (hc.met hm), hc.nodup⟩,
          List.cons_subset_cons _ hc.met,
          List.forall_mem_cons.mpr ⟨fun hm => hnew (hc.kept hm), hc.fresh⟩,
          fun n hn => List.mem_cons_of_mem _ (hc.kept hn)⟩
  | inlineFragment i =>
      rw [takeSelection]
      split
      · exact ⟨hc.nodup, hc.met, hc.fresh, hc.kept⟩
      · exact hc

theorem collectStep_expandsOnce {visited : List Name} (h : scope.collectStep objectType c = some c')
    (hc : ExpandsOnce visited c) : ExpandsOnce visited c' := by
  rcases collectStep_cases h with
    ⟨outer, _, rfl⟩ | ⟨s, rest, outer, _, _, rfl⟩ | ⟨s, rest, outer, _, _, rfl⟩
  · exact ⟨hc.nodup, hc.met, hc.fresh, hc.kept⟩
  · exact ⟨hc.nodup, hc.met, hc.fresh, hc.kept⟩
  · exact takeSelection_expandsOnce s ⟨hc.nodup, hc.met, hc.fresh, hc.kept⟩

/-! ## The steps come to what collection gives -/

/-- Some number of steps leads from one state to the other. -/
def Reached (scope : Scope ω σ) (objectType : Name) (c c' : Collecting) : Prop :=
  ∃ n, scope.collectSteps objectType n c = some c'

theorem Reached.refl (c : Collecting) : scope.Reached objectType c c :=
  ⟨0, rfl⟩

theorem Reached.trans (h : scope.Reached objectType c c') (h' : scope.Reached objectType c' c'') :
    scope.Reached objectType c c'' := by
  obtain ⟨n, hn⟩ := h
  obtain ⟨m, hm⟩ := h'
  exact ⟨n + m, collectSteps_trans hn hm⟩

theorem Reached.step (h : scope.collectStep objectType c = some c')
    (h' : scope.Reached objectType c' c'') : scope.Reached objectType c c'' := by
  obtain ⟨n, hn⟩ := h'
  exact ⟨n + 1, by rw [collectSteps, h]; exact hn⟩

section Step

variable {s : Selection} {rest : List Selection} {outer : List (List Selection)} {acc : Collected}
  {expanded : List Name}

theorem Reached.excluded (hi : s.isIncluded scope.bindings = false)
    (h : scope.Reached objectType ⟨rest :: outer, acc, expanded⟩ c') :
    scope.Reached objectType ⟨(s :: rest) :: outer, acc, expanded⟩ c' :=
  .step (by simp [collectStep, hi]) h

theorem Reached.take (hi : s.isIncluded scope.bindings = true)
    (h : scope.Reached objectType (scope.takeSelection objectType ⟨rest :: outer, acc, expanded⟩ s) c') :
    scope.Reached objectType ⟨(s :: rest) :: outer, acc, expanded⟩ c' :=
  .step (by simp [collectStep, hi]) h

theorem Reached.close (h : scope.Reached objectType ⟨outer, acc, expanded⟩ c') :
    scope.Reached objectType ⟨[] :: outer, acc, expanded⟩ c' :=
  .step rfl h

end Step

/-- The steps for a selection list add its fields, and go on with what stood around it. -/
theorem Flattens.reached {v v' : List Name} {ss : List Selection} {fs : List Field}
    (h : scope.Flattens objectType v ss v' fs) :
    ∀ (outer : List (List Selection)) (groups : List FieldGroup) (expanded : List Name),
      ∃ expanded', scope.Reached objectType ⟨ss :: outer, ⟨v, groups⟩, expanded⟩
        ⟨outer, ⟨v', groupFields fs groups⟩, expanded'⟩ := by
  induction h with
  | nil => exact fun outer groups expanded => ⟨expanded, .close (.refl _)⟩
  | excluded hi _ ih =>
      intro outer groups expanded
      obtain ⟨expanded', hrest⟩ := ih outer groups expanded
      exact ⟨expanded', .excluded hi hrest⟩
  | field hi _ ih =>
      intro outer groups expanded
      obtain ⟨expanded', hrest⟩ := ih outer (addToGroups _ groups) expanded
      exact ⟨expanded', .take hi hrest⟩
  | met hi hm _ ih =>
      intro outer groups expanded
      obtain ⟨expanded', hrest⟩ := ih outer groups expanded
      refine ⟨expanded', .take hi ?_⟩
      rw [takeSelection, openFragment, if_pos hm]
      exact hrest
  | barred hi hm hx _ ih =>
      intro outer groups expanded
      obtain ⟨expanded', hrest⟩ := ih outer groups expanded
      refine ⟨expanded', .take hi ?_⟩
      rw [takeSelection, openFragment, if_neg hm, hx]
      exact hrest
  | @spread v between _ s rest _ _ _ hi hm hx _ _ ih₁ ih₂ =>
      intro outer groups expanded
      obtain ⟨expanded₁, hinner⟩ := ih₁ (rest :: outer) groups (s.fragment :: expanded)
      obtain ⟨expanded₂, hrest⟩ := ih₂ outer (groupFields _ groups) expanded₁
      refine ⟨expanded₂, .take hi ?_⟩
      rw [takeSelection, openFragment, if_neg hm, hx, groupFields_append]
      exact hinner.trans hrest
  | foreign hi ha _ ih =>
      intro outer groups expanded
      obtain ⟨expanded', hrest⟩ := ih outer groups expanded
      refine ⟨expanded', .take hi ?_⟩
      rw [takeSelection, ha]
      exact hrest
  | @inline v between _ i rest _ _ hi ha _ _ ih₁ ih₂ =>
      intro outer groups expanded
      obtain ⟨expanded₁, hinner⟩ := ih₁ (rest :: outer) groups expanded
      obtain ⟨expanded₂, hrest⟩ := ih₂ outer (groupFields _ groups) expanded₁
      refine ⟨expanded₂, .take hi ?_⟩
      rw [takeSelection, ha, groupFields_append]
      exact hinner.trans hrest

/-- The steps end with what collection gives: its bound on the depth cuts nothing off. -/
theorem collectWithin_reached (scope : Scope ω σ) (objectType : Name) (ss : List Selection)
    (acc : Collected) :
    ∃ expanded, scope.Reached objectType ⟨[ss], acc, []⟩
      ⟨[], scope.collectWithin objectType scope.fragments.length ss acc, expanded⟩ := by
  have hcollects : scope.Collects objectType ss acc
      (scope.collectWithin objectType scope.fragments.length ss acc) :=
    collectWithin_collects _ _ (List.length_filter_le _ _)
  obtain ⟨v, fs, hflat, hresult⟩ := hcollects
  rw [hresult]
  exact hflat.reached [] acc.groups []

/-- Collection ends after at most so many steps as its selections and the fragments not met before can
take.  It expands no fragment twice, and none that was met before. -/
theorem collect_ends (scope : Scope ω σ) (objectType : Name) (ss : List Selection) (acc : Collected) :
    ∃ n ≤ Selection.stepsOf ss + scope.unmetSteps acc.visited, ∃ expanded : List Name,
      scope.collectSteps objectType n ⟨[ss], acc, []⟩ =
        some ⟨[], scope.collectWithin objectType scope.fragments.length ss acc, expanded⟩ ∧
      expanded.Nodup ∧ ∀ name ∈ expanded, name ∉ acc.visited := by
  obtain ⟨expanded, n, hn⟩ := scope.collectWithin_reached objectType ss acc
  have hbound := collectSteps_stepsLeft hn
  have hstart : ExpandsOnce acc.visited ⟨[ss], acc, []⟩ :=
    ⟨List.nodup_nil, List.nil_subset _, fun _ hn => absurd hn List.not_mem_nil, fun _ hn => hn⟩
  have hend := collectSteps_preserves collectStep_expandsOnce hn hstart
  refine ⟨n, ?_, expanded, hn, hend.nodup, hend.fresh⟩
  simp only [stepsLeft, List.foldr_cons, List.foldr_nil, Nat.add_zero] at hbound
  omega

end Scope

end GraphQLEngine
