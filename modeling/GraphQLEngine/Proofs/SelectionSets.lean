/-
Selection sets put together, and selection sets worked on one field after the
other.

Both main statements compare executions of selection sets on one object, for
resolvers that pay no regard to the shared state.

* `Scope.runSelections_append`: a query for two selection sets without a common
  response key gives the errors of the first and then those of the second, the
  entries likewise, and makes the calls of both.  A null goes on if one of the
  two passes it on.  Nothing that a field does bears on its siblings.
* `Scope.runSelections_inOrder`: a mutation and a query for the same selection
  set give the same data.  The mutation gives the errors up to the first field
  that passes a null on, and all of them if there is none.

The work of two parts shares the set of fragments that were met, which is why
the first needs `Scope.collect_append`.  How many children are at work together
plays no part, since the order of events is left open.
-/
import GraphQLEngine.Proofs.Determinacy
import GraphQLEngine.Proofs.ScheduleIndependence

namespace GraphQLEngine

variable {ω σ : Type}

/-! ## Outcomes of fields -/

/-- The outcomes of the fields of an operation, as its work was left. -/
def Work.fieldOutcomes? : Work ω σ → Option (List (PathSegment × Outcome))
  | .query (.branch _ _ children) => Child.outcomes? children
  | .query _ => none
  | .mutation _ fields => Child.outcomes? fields

def Run.fieldOutcomes? (run : Run ω σ) : Option (List (PathSegment × Outcome)) :=
  run.work.bind Work.fieldOutcomes?

/-! ## Two parts -/

/-- What two selection sets on one object amount to. -/
def Response.beside (first second : Response) : Response where
  errors := first.errors ++ second.errors
  data := do
    let entries ← first.data
    let later ← second.data
    some (entries ++ later)

theorem fieldsResponse_beside (os os' : List (PathSegment × Outcome)) :
    fieldsResponse (os ++ os') = (fieldsResponse os).beside (fieldsResponse os') := by
  simp only [fieldsResponse, Response.beside, List.flatMap_append, allValues_append,
    Response.mk.injEq, true_and]
  cases allValues os <;> cases allValues os' <;> simp

namespace Scope

variable {scope : Scope ω σ} {site : Site ω σ} {ss ts : List Selection} {levels : Nat}

/-- The fields of two parts without a common key are those of each. -/
theorem fieldChildren_append (site : Site ω σ)
    (hkeys : ∀ k ∈ groupKeys (scope.collect site.objectType.name ss),
      k ∉ groupKeys (scope.collect site.objectType.name ts)) :
    scope.fieldChildren site (ss ++ ts) =
      scope.fieldChildren site ss ++ scope.fieldChildren site ts := by
  rw [fieldChildren, scope.collect_append site.objectType.name hkeys, List.map_append]
  rfl

/-- A query that responds leaves the outcomes of its fields, which are also those that the fields
come to.  Its response is made of them. -/
theorem exists_fieldOutcomes (hpure : scope.schema.Pure)
    (hsite : ∃ name, scope.schema.object? name = some site.objectType) (state : σ) {limit : Nat}
    {state' : σ} {r : Response}
    (h : (scope.runSelections .query site levels ss limit state').ending = .responded r) :
    ∃ os, (scope.runSelections .query site levels ss limit state').fieldOutcomes? = some os ∧
      Child.outcomesBy (scope.eventual? state levels) (scope.fieldChildren site ss) = some os ∧
      r = fieldsResponse os := by
  obtain ⟨_, turns, children, _, os, hwork, hall, hos, hr, _⟩ := exists_unfoldsAll_of_query h
  have hsound : Child.AllSound (scope.fieldChildren site ss) :=
    sound_operationWork hpure hsite .mutation ss
  refine ⟨os, ?_, hall.eventual_eq hpure state hsound hos, hr⟩
  rw [Run.fieldOutcomes?, hwork]
  exact hos

theorem respondsWith_of_outcomesBy (hpure : scope.schema.Pure)
    (hsite : ∃ name, scope.schema.object? name = some site.objectType) {state : σ}
    {os : List (PathSegment × Outcome)}
    (h : Child.outcomesBy (scope.eventual? state levels) (scope.fieldChildren site ss) = some os) :
    scope.RespondsWith .query site levels ss (fieldsResponse os) := by
  rw [← toResponse_join site os]
  refine respondsWith_of_workEventual hpure hsite state ?_
  rw [workEventual?_query, h, Option.map_some]

/-- The calls of a query for two parts are those for each. -/
theorem perm_events_of_append (hpure : scope.schema.Pure)
    (hsite : ∃ name, scope.schema.object? name = some site.objectType)
    (hfields : scope.fieldChildren site (ss ++ ts) =
      scope.fieldChildren site ss ++ scope.fieldChildren site ts)
    {limit limit₁ limit₂ : Nat} {state state₁ state₂ : σ} {r r₁ r₂ : Response}
    (h : (scope.runSelections .query site levels (ss ++ ts) limit state).ending = .responded r)
    (h₁ : (scope.runSelections .query site levels ss limit₁ state₁).ending = .responded r₁)
    (h₂ : (scope.runSelections .query site levels ts limit₂ state₂).ending = .responded r₂) :
    (scope.runSelections .query site levels (ss ++ ts) limit state).events.Perm
      ((scope.runSelections .query site levels ss limit₁ state₁).events ++
        (scope.runSelections .query site levels ts limit₂ state₂).events) := by
  obtain ⟨_, _, children, course, os, _, hall, hos, _, hperm⟩ := exists_unfoldsAll_of_query h
  obtain ⟨_, _, _, _, _, _, hall₁, hos₁, _, hperm₁⟩ := exists_unfoldsAll_of_query h₁
  obtain ⟨_, _, _, _, _, _, hall₂, hos₂, _, hperm₂⟩ := exists_unfoldsAll_of_query h₂
  have hsound₁ : Child.AllSound (scope.fieldChildren site ss) :=
    sound_operationWork hpure hsite .mutation ss
  have hsound₂ : Child.AllSound (scope.fieldChildren site ts) :=
    sound_operationWork hpure hsite .mutation ts
  rw [hfields] at hall
  obtain ⟨first, second, c₁, c₂, rfl, hfirst, hsecond, hevents⟩ := hall.of_append
  -- Each part of the whole is finished, as the part by itself is.
  rw [Child.outcomes?_append, Option.bind_eq_some_iff] at hos
  obtain ⟨os₁, hos₁', hos⟩ := hos
  obtain ⟨os₂, hos₂', _⟩ := Option.map_eq_some_iff.mp hos
  have heq₁ := hfirst.events_eq hpure hall₁ hsound₁ hos₁' hos₁
  have heq₂ := hsecond.events_eq hpure hall₂ hsound₂ hos₂' hos₂
  rw [hevents, heq₁, heq₂] at hperm
  exact hperm.trans (hperm₁.append hperm₂).symm

/-- Selection sets without a common response key compose. -/
theorem runSelections_append (hpure : scope.schema.Pure)
    (hsite : ∃ name, scope.schema.object? name = some site.objectType)
    (hkeys : ∀ k ∈ groupKeys (scope.collect site.objectType.name ss),
      k ∉ groupKeys (scope.collect site.objectType.name ts)) (levels : Nat) :
    (∀ limit₁ state₁ r₁,
      (scope.runSelections .query site levels ss limit₁ state₁).ending = .responded r₁ →
      ∀ limit₂ state₂ r₂,
        (scope.runSelections .query site levels ts limit₂ state₂).ending = .responded r₂ →
        scope.RespondsWith .query site levels (ss ++ ts) (r₁.beside r₂) ∧
        ∀ limit state,
          (scope.runSelections .query site levels (ss ++ ts) limit state).ending ≠ .cancelled →
          (scope.runSelections .query site levels (ss ++ ts) limit state).events.Perm
            ((scope.runSelections .query site levels ss limit₁ state₁).events ++
              (scope.runSelections .query site levels ts limit₂ state₂).events)) ∧
    ∀ limit state,
      (scope.runSelections .query site levels (ss ++ ts) limit state).ending ≠ .cancelled →
      (∃ r₁, scope.RespondsWith .query site levels ss r₁) ∧
        ∃ r₂, scope.RespondsWith .query site levels ts r₂ := by
  have hfields := fieldChildren_append site hkeys
  constructor
  · intro limit₁ state₁ r₁ h₁ limit₂ state₂ r₂ h₂
    obtain ⟨os₁, _, hos₁, rfl⟩ := exists_fieldOutcomes hpure hsite state₁ h₁
    obtain ⟨os₂, _, hos₂, rfl⟩ := exists_fieldOutcomes hpure hsite state₁ h₂
    have hos : Child.outcomesBy (scope.eventual? state₁ levels)
        (scope.fieldChildren site (ss ++ ts)) = some (os₁ ++ os₂) := by
      rw [hfields, Child.outcomesBy_append, hos₁, hos₂]
      rfl
    have hwhole := respondsWith_of_outcomesBy hpure hsite hos
    rw [fieldsResponse_beside] at hwhole
    refine ⟨hwhole, ?_⟩
    intro limit state hended
    exact perm_events_of_append hpure hsite hfields (hwhole.only limit state hended) h₁ h₂
  · intro limit state hended
    obtain ⟨r, h⟩ := exists_responded hended
    obtain ⟨os, _, hos, _⟩ := exists_fieldOutcomes hpure hsite state h
    rw [hfields, Child.outcomesBy_append, Option.bind_eq_some_iff] at hos
    obtain ⟨os₁, hos₁, hos⟩ := hos
    obtain ⟨os₂, hos₂, _⟩ := Option.map_eq_some_iff.mp hos
    exact ⟨⟨_, respondsWith_of_outcomesBy hpure hsite hos₁⟩,
      ⟨_, respondsWith_of_outcomesBy hpure hsite hos₂⟩⟩

end Scope

/-! ## A gauge -/

/-- A gauge that reads its depth, while other readings fail. -/
def gaugeType : ObjectType Unit Nat where
  name := "Gauge"
  fields := [
    ("depth", { name := "depth", type := .nonNullNamed "Int", resolver? := some (.number 7) }),
    ("salinity", { name := "salinity", type := .named "Int", resolver? := some .failing }),
    ("pressure", { name := "pressure", type := .nonNullNamed "Int", resolver? := some .failing })]

def gaugeSchema : Schema Unit Nat where
  queryType := "Gauge"
  mutationType := none
  types := BuiltIn.scalars.map (fun t => (t.name, .scalar t)) ++ [("Gauge", .object gaugeType)]
  possible := []

/-- One child at a time is at work, and the only fragment applies to no gauge. -/
def gaugeScope : Scope Unit Nat where
  schema := gaugeSchema
  fragments := [("Mooring", ⟨"Mooring", "Buoy", [], [.plain "pressure" []], none⟩)]
  bindings := []
  width := some 1

def gaugeSite : Site Unit Nat :=
  ⟨gaugeType, .json [], [.key "gauge"]⟩

/-- A reading, before or after the fragment is met. -/
def gaugeReading (name : Name) : List Selection :=
  [.plain name [], .spread ⟨"Mooring", [], none⟩]

/-- The error of a reading that fails. -/
def gaugeError (name : Name) : ResponseError :=
  { message := "no can do", path := [.key "gauge", .key name] }

theorem gaugeSchema_pure : gaugeSchema.Pure := by
  refine Schema.pure_of_single rfl ?_
  intro fieldName definition hfield resolver hresolver
  simp only [gaugeType, List.mem_cons, Prod.mk.injEq, List.not_mem_nil, or_false] at hfield
  rcases hfield with ⟨_, rfl⟩ | ⟨_, rfl⟩ | ⟨_, rfl⟩ <;> cases hresolver <;> exact fun _ _ _ => rfl

theorem gaugeSite_registered :
    ∃ name, gaugeScope.schema.object? name = some gaugeSite.objectType :=
  ⟨"Gauge", rfl⟩

/-- A reading that fails leaves the one beside it as it is, unless a null goes on. -/
theorem gaugeScope_runSelections_append :
    gaugeSchema.Pure ∧ (∃ name, gaugeScope.schema.object? name = some gaugeSite.objectType) ∧
    (∀ k ∈ groupKeys (gaugeScope.collect "Gauge" (gaugeReading "depth")),
      k ∉ groupKeys (gaugeScope.collect "Gauge" (gaugeReading "salinity"))) ∧
    gaugeScope.RespondsWith .query gaugeSite 1 (gaugeReading "depth" ++ gaugeReading "salinity")
      ⟨[gaugeError "salinity"], some [("depth", .int 7), ("salinity", .null)]⟩ ∧
    gaugeScope.RespondsWith .query gaugeSite 1 (gaugeReading "depth" ++ gaugeReading "pressure")
      ⟨[gaugeError "pressure"], none⟩ := by
  have hkeys : ∀ k ∈ groupKeys (gaugeScope.collect "Gauge" (gaugeReading "depth")),
      k ∉ groupKeys (gaugeScope.collect "Gauge" (gaugeReading "salinity")) := by decide +kernel
  have hkeys' : ∀ k ∈ groupKeys (gaugeScope.collect "Gauge" (gaugeReading "depth")),
      k ∉ groupKeys (gaugeScope.collect "Gauge" (gaugeReading "pressure")) := by decide +kernel
  have hdepth : (gaugeScope.runSelections .query gaugeSite 1 (gaugeReading "depth") 4 0).ending =
      .responded ⟨[], some [("depth", .int 7)]⟩ := by decide +kernel
  have hsalinity : (gaugeScope.runSelections .query gaugeSite 1 (gaugeReading "salinity") 4 5).ending =
      .responded ⟨[gaugeError "salinity"], some [("salinity", .null)]⟩ := by decide +kernel
  have hpressure : (gaugeScope.runSelections .query gaugeSite 1 (gaugeReading "pressure") 4 5).ending =
      .responded ⟨[gaugeError "pressure"], none⟩ := by decide +kernel
  refine ⟨gaugeSchema_pure, gaugeSite_registered, hkeys, ?_, ?_⟩
  · have happend := Scope.runSelections_append gaugeSchema_pure gaugeSite_registered hkeys 1
    exact (happend.1 4 0 _ hdepth 4 5 _ hsalinity).1
  · have happend := Scope.runSelections_append gaugeSchema_pure gaugeSite_registered hkeys' 1
    exact (happend.1 4 0 _ hdepth 4 5 _ hpressure).1

/-! ## One field after the other -/

/-- The outcomes up to and including the first that lacks a value. -/
def throughNull : List (PathSegment × Outcome) → List (PathSegment × Outcome)
  | [] => []
  | first :: later => if first.2.value.isNone then [first] else first :: throughNull later

theorem throughNull_of_values : ∀ {os : List (PathSegment × Outcome)}
    {vs : List (PathSegment × Json)}, allValues os = some vs → throughNull os = os
  | [], _, _ => rfl
  | (s, o) :: later, _, h => by
      obtain ⟨j, js, hj, hjs, _⟩ := allValues_cons.mp h
      rw [throughNull, throughNull_of_values hjs, if_neg (by simp [hj])]

theorem throughNull_of_null : ∀ {os : List (PathSegment × Outcome)}, allValues os = none →
    ∃ before first after, os = before ++ first :: after ∧ (∀ o ∈ before, o.2.value ≠ none) ∧
      first.2.value = none ∧ throughNull os = before ++ [first]
  | [], h => by cases h
  | (s, o) :: later, h => by
      match ho : o.value with
      | none =>
          refine ⟨[], (s, o), later, rfl, nofun, ho, ?_⟩
          rw [throughNull, if_pos (by simp [ho])]
          rfl
      | some j =>
          have hlater : allValues later = none := by
            match hv : allValues later with
            | none => rfl
            | some js =>
                rw [allValues_cons.mpr ⟨j, js, ho, hv, rfl⟩] at h
                cases h
          obtain ⟨before, first, after, rfl, hbefore, hfirst, heq⟩ := throughNull_of_null hlater
          refine ⟨(s, o) :: before, first, after, rfl, ?_, hfirst, ?_⟩
          · exact List.forall_mem_cons.mpr ⟨by simp [ho], hbefore⟩
          · rw [throughNull, if_neg (by simp [ho]), heq]
            rfl

namespace Child

variable {f : Task ω σ → Option Outcome}

/-- Fields that come to something all together do so one after the other, up to the first that passes
a null on. -/
theorem inOrderBy_of_outcomesBy : ∀ {children : List (Child ω σ)}
    {os : List (PathSegment × Outcome)}, outcomesBy f children = some os →
      inOrderBy f children = some (throughNull os)
  | [], _, h => by
      cases h
      rfl
  | .absent _ :: rest, os, h =>
      show inOrderBy f rest = some (throughNull os) from inOrderBy_of_outcomesBy h
  | .mk position t :: rest, _, h => by
      obtain ⟨o, os, ho, hos, rfl⟩ := outcomesBy_mk_cons.mp h
      simp only [inOrderBy, ho, throughNull, inOrderBy_of_outcomesBy hos]
      split <;> rfl

/-- Fields of which none passes a null on have all been worked on. -/
theorem outcomesBy_of_inOrderBy : ∀ {children : List (Child ω σ)}
    {os : List (PathSegment × Outcome)} {vs : List (PathSegment × Json)},
      inOrderBy f children = some os → allValues os = some vs → outcomesBy f children = some os
  | [], _, _, h, _ => h
  | .absent _ :: rest, os, _, h, hvs =>
      show outcomesBy f rest = some os from outcomesBy_of_inOrderBy h hvs
  | .mk position t :: rest, _, _, h, hvs => by
      rw [inOrderBy] at h
      cases ho : f t with
      | none => simp [ho] at h
      | some o =>
          by_cases hnull : (o.settle position.type).value.isNone = true
          · simp only [ho, hnull, if_true, Option.some.injEq] at h
            subst h
            obtain ⟨j, _, hj, _⟩ := allValues_cons.mp hvs
            simp [hj] at hnull
          · rw [Bool.not_eq_true] at hnull
            simp only [ho, hnull, Bool.false_eq_true, if_false, Option.map_eq_some_iff] at h
            obtain ⟨os, hos, rfl⟩ := h
            obtain ⟨_, js, _, hjs, _⟩ := allValues_cons.mp hvs
            exact outcomesBy_mk_cons.mpr ⟨o, os, ho, outcomesBy_of_inOrderBy hos hjs, rfl⟩

end Child

/-- What working in order makes of a response, given the outcomes of the fields: the data are the
same, and errors are those up to and including the first field that passes a null on. -/
structure Response.InOrder (outcomes : List (PathSegment × Outcome)) (response serial : Response) :
    Prop where
  data : serial.data = response.data
  errors_prefix : serial.errors <+: response.errors
  all_errors : response.data ≠ none → serial.errors = response.errors
  through_null : response.data = none → ∃ before first after,
    outcomes = before ++ first :: after ∧ (∀ o ∈ before, o.2.value ≠ none) ∧
      first.2.value = none ∧ serial.errors = (before ++ [first]).flatMap (fun o => o.2.errors)

theorem inOrder_fieldsResponse (os : List (PathSegment × Outcome)) :
    (fieldsResponse os).InOrder os (fieldsResponse (throughNull os)) := by
  cases hvs : allValues os with
  | some vs =>
      have hsome : (fieldsResponse os).data ≠ none := by simp [fieldsResponse, hvs]
      rw [throughNull_of_values hvs]
      exact ⟨rfl, List.prefix_rfl, fun _ => rfl, fun hnone => absurd hnone hsome⟩
  | none =>
      have hnone : (fieldsResponse os).data = none := by simp [fieldsResponse, hvs]
      obtain ⟨before, first, after, hos, hbefore, hfirst, heq⟩ := throughNull_of_null hvs
      have hstops : allValues (before ++ [first]) = none := by
        simp [allValues_append, allValues, hfirst]
      refine ⟨?_, ?_, fun hsome => absurd hnone hsome, ?_⟩
      · rw [hnone, heq, fieldsResponse, hstops, Option.map_none]
      · refine ⟨after.flatMap (fun o => o.2.errors), ?_⟩
        rw [heq, hos]
        simp [fieldsResponse]
      · intro _
        exact ⟨before, first, after, hos, hbefore, hfirst, by rw [heq]; rfl⟩

namespace Scope

variable {scope : Scope ω σ} {site : Site ω σ} {levels : Nat}

/-- To work on fields one after the other gives the same data as to work on them together, and the
errors up to the first null that goes on. -/
theorem runSelections_inOrder (hpure : scope.schema.Pure)
    (hsite : ∃ name, scope.schema.object? name = some site.objectType) (levels : Nat)
    (ss : List Selection) :
    (∀ limit state r,
      (scope.runSelections .query site levels ss limit state).ending = .responded r →
      ∃ os s, (scope.runSelections .query site levels ss limit state).fieldOutcomes? = some os ∧
        os.map Prod.fst =
          (site.objectType.responseKeys (scope.collect site.objectType.name ss)).map .key ∧
        r = fieldsResponse os ∧ scope.RespondsWith .mutation site levels ss s ∧ r.InOrder os s) ∧
    ∀ limit state s,
      (scope.runSelections .mutation site levels ss limit state).ending = .responded s →
      s.data ≠ none → scope.RespondsWith .query site levels ss s := by
  constructor
  · intro limit state r h
    obtain ⟨os, hleft, hos, rfl⟩ := exists_fieldOutcomes hpure hsite state h
    refine ⟨os, fieldsResponse (throughNull os), hleft, ?_, rfl, ?_, inOrder_fieldsResponse os⟩
    · rw [Child.segments_of_outcomesBy hos]
      exact segments_fieldChildren site _
    · rw [← toResponse_join site (throughNull os)]
      refine respondsWith_of_workEventual hpure hsite state ?_
      rw [workEventual?_mutation, Child.inOrderBy_of_outcomesBy hos, Option.map_some]
  · intro limit state s h hdata
    obtain ⟨o, ho, rfl⟩ := exists_workEventual hpure hsite state h
    rw [workEventual?_mutation, Option.map_eq_some_iff] at ho
    obtain ⟨os, hos, rfl⟩ := ho
    rw [toResponse_join] at hdata ⊢
    obtain ⟨vs, hvs⟩ : ∃ vs, allValues os = some vs := by
      refine Option.ne_none_iff_exists'.mp ?_
      intro hnone
      exact hdata (by rw [fieldsResponse, hnone, Option.map_none])
    exact respondsWith_of_outcomesBy hpure hsite (Child.outcomesBy_of_inOrderBy hos hvs)

end Scope

/-- Of the readings that fail, the mutation reports the first that passes a null on, and nothing after
it. -/
theorem gaugeScope_runSelections_inOrder :
    gaugeSchema.Pure ∧ (∃ name, gaugeScope.schema.object? name = some gaugeSite.objectType) ∧
    (∃ os s, (gaugeScope.runSelections .query gaugeSite 1
        (gaugeReading "pressure" ++ gaugeReading "salinity") 4 0).fieldOutcomes? = some os ∧
      os.map Prod.fst = [.key "pressure", .key "salinity"] ∧
      ⟨[gaugeError "pressure", gaugeError "salinity"], none⟩ = fieldsResponse os ∧
      gaugeScope.RespondsWith .mutation gaugeSite 1
        (gaugeReading "pressure" ++ gaugeReading "salinity") s ∧
      Response.InOrder os ⟨[gaugeError "pressure", gaugeError "salinity"], none⟩ s) ∧
    gaugeScope.RespondsWith .query gaugeSite 1 (gaugeReading "salinity" ++ gaugeReading "depth")
      ⟨[gaugeError "salinity"], some [("salinity", .null), ("depth", .int 7)]⟩ := by
  refine ⟨gaugeSchema_pure, gaugeSite_registered, ?_, ?_⟩
  · exact (Scope.runSelections_inOrder gaugeSchema_pure gaugeSite_registered 1 _).1 4 0 _
      (by decide +kernel)
  · exact (Scope.runSelections_inOrder gaugeSchema_pure gaugeSite_registered 1 _).2 6 0 _
      (by decide +kernel) (by simp)

end GraphQLEngine
