/-
What finished work comes to, piece by piece.

Outcomes are computed by recursion over children, and values by recursion over
outcomes.  The lemmas here take both apart: at the first child, at an append,
and at a single member.  Nothing here is about steps.
-/
import GraphQLEngine.Execution.Task

namespace GraphQLEngine

variable {ω σ : Type}

/-! ## Nulls that a position takes up -/

@[simp]
theorem Outcome.settle_errors (type : TypeRef) (o : Outcome) : (o.settle type).errors = o.errors := by
  rw [settle]
  split
  · rfl
  · split <;> rfl

theorem Outcome.settle_value_none {type : TypeRef} {o : Outcome} :
    (o.settle type).value = none ↔ o.value = none ∧ type.isNonNull = true := by
  rw [settle]
  match h : o.value with
  | some j => simp [h]
  | none =>
      match ht : type.isNonNull with
      | true => simp [h]
      | false => simp

theorem Outcome.settle_value_some {type : TypeRef} {o : Outcome} {j : Json} :
    (o.settle type).value = some j ↔
      o.value = some j ∨ (o.value = none ∧ type.isNonNull = false ∧ j = .null) := by
  rw [settle]
  match h : o.value with
  | some k => simp [h]
  | none =>
      match ht : type.isNonNull with
      | true => simp [h]
      | false => simp [eq_comm]

/-! ## Values -/

theorem allValues_cons {s : PathSegment} {o : Outcome} {os : List (PathSegment × Outcome)}
    {vs : List (PathSegment × Json)} :
    allValues ((s, o) :: os) = some vs ↔
      ∃ j js, o.value = some j ∧ allValues os = some js ∧ vs = (s, j) :: js := by
  simp only [allValues, Option.bind_eq_bind, Option.bind_eq_some_iff, Option.some.injEq]
  constructor
  · rintro ⟨j, hj, js, hjs, rfl⟩
    exact ⟨j, js, hj, hjs, rfl⟩
  · rintro ⟨j, js, hj, hjs, rfl⟩
    exact ⟨j, hj, js, hjs, rfl⟩

theorem allValues_append : ∀ os os' : List (PathSegment × Outcome),
    allValues (os ++ os') = (allValues os).bind fun vs => (allValues os').map (vs ++ ·)
  | [], os' => by simp [allValues]
  | (s, o) :: os, os' => by
      rw [List.cons_append, allValues, allValues, allValues_append os os']
      cases o.value <;> cases allValues os <;> cases allValues os' <;> rfl

theorem allValues_eq_some {os : List (PathSegment × Outcome)} {vs : List (PathSegment × Json)}
    (h : allValues os = some vs) :
    vs.map Prod.fst = os.map Prod.fst ∧
      ∀ s o, (s, o) ∈ os → ∃ j, o.value = some j ∧ (s, j) ∈ vs := by
  induction os generalizing vs with
  | nil =>
      cases Option.some.inj h
      simp
  | cons first rest ih =>
      obtain ⟨j, js, hj, hjs, rfl⟩ := allValues_cons.mp h
      obtain ⟨hfst, hval⟩ := ih hjs
      refine ⟨by simp [hfst], ?_⟩
      intro s o hmem
      rcases List.mem_cons.mp hmem with rfl | hmem
      · exact ⟨j, hj, List.mem_cons_self⟩
      · obtain ⟨j', hj', hmem'⟩ := hval s o hmem
        exact ⟨j', hj', List.mem_cons_of_mem _ hmem'⟩

theorem exists_of_mem_allValues {os : List (PathSegment × Outcome)} {vs : List (PathSegment × Json)}
    (h : allValues os = some vs) : ∀ s j, (s, j) ∈ vs → ∃ o, (s, o) ∈ os ∧ o.value = some j := by
  induction os generalizing vs with
  | nil =>
      cases Option.some.inj h
      simp
  | cons first rest ih =>
      obtain ⟨j, js, hj, hjs, rfl⟩ := allValues_cons.mp h
      intro s j' hmem
      rcases List.mem_cons.mp hmem with heq | hmem
      · cases heq
        exact ⟨first.2, List.mem_cons_self, hj⟩
      · obtain ⟨o, hmem', ho⟩ := ih hjs s j' hmem
        exact ⟨o, List.mem_cons_of_mem _ hmem', ho⟩

theorem exists_of_allValues_eq_none {os : List (PathSegment × Outcome)} (h : allValues os = none) :
    ∃ s o, (s, o) ∈ os ∧ o.value = none := by
  induction os with
  | nil => cases h
  | cons first rest ih =>
      obtain ⟨s, o⟩ := first
      match ho : o.value, hr : allValues rest with
      | none, _ => exact ⟨s, o, List.mem_cons_self, ho⟩
      | some _, none =>
          obtain ⟨s', o', hmem, ho'⟩ := ih hr
          exact ⟨s', o', List.mem_cons_of_mem _ hmem, ho'⟩
      | some j, some js =>
          rw [allValues_cons.mpr ⟨j, js, ho, hr, rfl⟩] at h
          cases h

namespace Child

/-! ## Outcomes of children -/

theorem outcomes?_append : ∀ children later : List (Child ω σ),
    outcomes? (children ++ later) =
      (outcomes? children).bind fun os => (outcomes? later).map (os ++ ·)
  | [], later => by simp [outcomes?]
  | .absent _ :: rest, later =>
      show outcomes? (rest ++ later) = (outcomes? rest).bind _ from outcomes?_append rest later
  | .mk _ t :: rest, later => by
      rw [List.cons_append, outcomes?, outcomes?, outcomes?_append rest later]
      cases t.outcome? <;> cases outcomes? rest <;> cases outcomes? later <;> rfl

/-- The outcomes of a child, and of those behind it. -/
theorem outcomes?_cons (c : Child ω σ) (later : List (Child ω σ)) :
    outcomes? (c :: later) = (outcomes? [c]).bind fun os => (outcomes? later).map (os ++ ·) :=
  outcomes?_append [c] later

theorem outcomes?_cons_eq_some {c : Child ω σ} {later : List (Child ω σ)}
    {os : List (PathSegment × Outcome)} :
    outcomes? (c :: later) = some os ↔
      ∃ own os', outcomes? [c] = some own ∧ outcomes? later = some os' ∧ os = own ++ os' := by
  rw [outcomes?_cons, Option.bind_eq_some_iff]
  constructor
  · rintro ⟨own, hown, h⟩
    obtain ⟨os', hlater, rfl⟩ := Option.map_eq_some_iff.mp h
    exact ⟨own, os', hown, hlater, rfl⟩
  · rintro ⟨own, os', hown, hlater, rfl⟩
    exact ⟨own, hown, by rw [hlater, Option.map_some]⟩

/-- Behind a finished child, outcomes are missing if they are missing at all. -/
theorem outcomes?_later_eq_none {position : Position} {t : Task ω σ} {later : List (Child ω σ)}
    {o : Outcome} (ht : t.outcome? = some o) (h : outcomes? (.mk position t :: later) = none) :
    outcomes? later = none := by
  match hlater : outcomes? later with
  | none => rfl
  | some os =>
      rw [outcomes?_mk_cons.mpr ⟨o, os, ht, hlater, rfl⟩] at h
      cases h

/-! ## Finished children -/

theorem isFinished_iff {c : Child ω σ} : c.isFinished = true ↔ ∃ os, outcomes? [c] = some os := by
  cases c with
  | absent key => exact iff_of_true rfl ⟨[], rfl⟩
  | mk position t =>
      rw [isFinished, outcomes?, Option.isSome_iff_exists]
      cases t.outcome? <;> simp [outcomes?]

theorem passesNull_mk {position : Position} {t : Task ω σ} {o : Outcome} (h : t.outcome? = some o) :
    (Child.mk position t).passesNull = (o.settle position.type).value.isNone := by
  simp only [passesNull, h]

/-- A finished child passes a null on if its outcome lacks a value. -/
theorem passesNull_eq {c : Child ω σ} {os : List (PathSegment × Outcome)}
    (h : outcomes? [c] = some os) : c.passesNull = (allValues os).isNone := by
  cases c with
  | absent key =>
      cases Option.some.inj h
      rfl
  | mk position t =>
      obtain ⟨o, os', ho, hnil, rfl⟩ := outcomes?_mk_cons.mp h
      cases Option.some.inj hnil
      rw [passesNull_mk ho, allValues]
      cases (o.settle position.type).value <;> rfl

theorem isFinished_of_mem {children : List (Child ω σ)} {os : List (PathSegment × Outcome)}
    (h : outcomes? children = some os) : ∀ c ∈ children, c.isFinished = true := by
  induction children generalizing os with
  | nil => exact fun c hc => absurd hc List.not_mem_nil
  | cons first rest ih =>
      obtain ⟨own, os', hown, hrest, -⟩ := outcomes?_cons_eq_some.mp h
      intro c hc
      rcases List.mem_cons.mp hc with rfl | hc
      · exact isFinished_iff.mpr ⟨own, hown⟩
      · exact ih hrest c hc

/-- Where all outcomes have values, no child passes a null on. -/
theorem passesNull_of_mem {children : List (Child ω σ)} {os : List (PathSegment × Outcome)}
    {vs : List (PathSegment × Json)} (h : outcomes? children = some os) (hvs : allValues os = some vs) :
    ∀ c ∈ children, c.passesNull = false := by
  induction children generalizing os vs with
  | nil => exact fun c hc => absurd hc List.not_mem_nil
  | cons first rest ih =>
      obtain ⟨own, os', hown, hrest, rfl⟩ := outcomes?_cons_eq_some.mp h
      rw [allValues_append, Option.bind_eq_some_iff] at hvs
      obtain ⟨ownValues, hownValues, hvs⟩ := hvs
      obtain ⟨values, hvalues, -⟩ := Option.map_eq_some_iff.mp hvs
      intro c hc
      rcases List.mem_cons.mp hc with rfl | hc
      · rw [passesNull_eq hown, hownValues]
        rfl
      · exact ih hrest hvalues c hc

/-- Where the children are not all finished, one of them is not. -/
theorem exists_unfinished {children : List (Child ω σ)} (h : outcomes? children = none) :
    ∃ (i : Nat) (c : Child ω σ), children[i]? = some c ∧ c.isFinished = false := by
  induction children with
  | nil => cases h
  | cons first rest ih =>
      match hf : first.isFinished with
      | false => exact ⟨0, first, rfl, hf⟩
      | true =>
          obtain ⟨own, hown⟩ := isFinished_iff.mp hf
          rw [outcomes?_cons, hown, Option.bind_some, Option.map_eq_none_iff] at h
          obtain ⟨i, c, hi, hc⟩ := ih h
          exact ⟨i + 1, c, hi, hc⟩

end Child

end GraphQLEngine
