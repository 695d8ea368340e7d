/-
How nulls spread from errors, and where else they come from.

Both directions are read off an account of the execution.  An error makes the
data null at or above the nearest place at or above it whose type admits null
(`Faithful.null_above`), and a null is either the upper end of an unbroken run
of non-null types above an error, or was resolved as such
(`Faithful.cause_of_null`).  `Account.Faithful` is what both rest on: errors
stand at their own places, and a value that is null was resolved.

The inside of a scalar's JSON value has no places of its own here.
-/
import GraphQLEngine.Proofs.Account
import GraphQLEngine.Proofs.Completion
import GraphQLEngine.Schema.Draft
import Mathlib.Data.List.Induction

namespace GraphQLEngine

variable {ω σ : Type}

/-! ## Places -/

/-- What a JSON value has at a segment. -/
def Json.member? : Json → PathSegment → Option Json
  | .obj entries, .key key => OrderedMap.get? entries key
  | .arr items, .index i => items[i]?
  | _, _ => none

/-- What a JSON value has at the end of a path. -/
def Json.at? : Json → Path → Option Json
  | json, [] => some json
  | json, segment :: rest => (json.member? segment).bind (fun j => j.at? rest)

/-- What a response has at a place.  Absent data are null. -/
def Response.dataAt? (response : Response) (path : Path) : Option Json :=
  (response.data.elim Json.null Json.obj).at? path

namespace Account

/-- The parts of an account, directly below its place. -/
def parts : Account ω σ → List (Placed ω σ)
  | .value _ => []
  | .failed _ => []
  | .answered _ account => account.parts
  | .branch _ parts => parts

def part? (account : Account ω σ) (segment : PathSegment) : Option (Placed ω σ) :=
  account.parts.find? (fun part => part.segment = segment)

/-- The part at the end of a path, which has at least one segment. -/
def placed? : Account ω σ → Path → Option (Placed ω σ)
  | _, [] => none
  | account, [segment] => account.part? segment
  | account, segment :: next :: rest =>
    (account.part? segment).bind (fun part => part.account.placed? (next :: rest))

/-- The declared type at a place other than the root. -/
def typeAt? (account : Account ω σ) (path : Path) : Option TypeRef :=
  (account.placed? path).map Placed.type

/-- What was resolved for the place of an account. -/
def answer? : Account ω σ → Option (Except ResolverFailure (Resolved ω))
  | .answered answer _ => some answer
  | .value _ => none
  | .failed _ => none
  | .branch _ _ => none

/-- The root, a field or a list item that was reached. -/
def IsPlace (account : Account ω σ) (path : Path) : Prop :=
  path = [] ∨ (account.placed? path).isSome

/-- Whether a null can stay at a place. -/
def AdmitsNull (account : Account ω σ) (path : Path) : Prop :=
  path = [] ∨ ∃ type, account.typeAt? path = some type ∧ type.isNonNull = false

/-- The longest part of a path, from the root on, whose end admits null. -/
structure IsNearest (account : Account ω σ) (path nearest : Path) : Prop where
  above : nearest <+: path
  admitsNull : account.AdmitsNull nearest
  longest : ∀ p, p <+: path → account.AdmitsNull p → p <+: nearest

/-- Below a place, no type on the way to an error admits null. -/
def Propagates (account : Account ω σ) (place : Path) (error : ResponseError) : Prop :=
  place <+: error.path ∧ ∀ p, place <+: p → p <+: error.path → p ≠ place →
    ∃ type, account.typeAt? p = some type ∧ type.isNonNull = true

end Account

/-- Answers that are null: a null was resolved, or a scalar made one of the value. -/
inductive Scope.ResolvesNull (scope : Scope ω σ) (type : TypeRef) :
    Except ResolverFailure (Resolved ω) → Prop
  | null : ResolvesNull scope type (.ok (.leaf .null))
  | serialized {t : ScalarType} {j : Json} :
      type.item? = none → scope.schema.type? type.innerName = some (.scalar t) →
      t.serialize j = .ok .null → ResolvesNull scope type (.ok (.leaf j))

/-- The value of a part is null because its answer is. -/
def Scope.NullResolved (scope : Scope ω σ) (part : Placed ω σ) : Prop :=
  ∃ answer, part.account.answer? = some answer ∧ scope.ResolvesNull part.type answer

/-! ## Values of branches -/

theorem OrderedMap.get?_of_segments {key : Name} {j : Json} :
    ∀ {values : List (PathSegment × Json)}, (values.map Prod.fst).Nodup →
      (∀ s ∈ values.map Prod.fst, ∃ k, s = .key k) → (.key key, j) ∈ values →
      OrderedMap.get? (values.map (fun v => (v.1.text, v.2))) key = some j
  | [], _, _, h => by cases h
  | (s, i) :: rest, hnodup, hkeys, h => by
      obtain ⟨k, rfl⟩ : ∃ k, s = .key k := hkeys s (by simp)
      simp only [List.map_cons, List.nodup_cons] at hnodup
      simp only [List.map_cons, get?, PathSegment.text]
      by_cases hk : k = key
      · subst hk
        rw [if_pos rfl]
        rcases List.mem_cons.mp h with heq | h
        · cases heq; rfl
        · exact absurd (List.mem_map_of_mem h) hnodup.1
      · rw [if_neg hk]
        rcases List.mem_cons.mp h with heq | h
        · cases heq; exact absurd rfl hk
        · exact get?_of_segments hnodup.2 (fun s hs => hkeys s (List.mem_cons_of_mem _ hs)) h

/-- An assembled value has the values that it is made of. -/
theorem Shape.member?_assemble {s : PathSegment} {j : Json} {values : List (PathSegment × Json)} :
    ∀ {shape : Shape ω σ}, shape.Fits (values.map Prod.fst) → (s, j) ∈ values →
      (shape.assemble values).member? s = some j
  | .object _, ⟨hnodup, hkeys⟩, h => by
      obtain ⟨key, rfl⟩ := hkeys s (List.mem_map_of_mem h)
      exact OrderedMap.get?_of_segments hnodup hkeys h
  | .list, hfit, h => by
      obtain ⟨i, hi⟩ := List.mem_iff_getElem?.mp h
      have hs : (values.map Prod.fst)[i]? = some s := by rw [List.getElem?_map, hi]; rfl
      rw [show values.map Prod.fst = _ from hfit, List.getElem?_map, Option.map_eq_some_iff] at hs
      obtain ⟨i', hi', rfl⟩ := hs
      rw [List.getElem?_eq_some_iff] at hi'
      obtain ⟨_, rfl⟩ := hi'
      simp [assemble, Json.member?, hi]

namespace Account

variable {shape : Shape ω σ} {parts : List (Placed ω σ)}

theorem mem_errors_branch {e : ResponseError} :
    e ∈ (Account.branch shape parts).outcome.errors ↔
      ∃ part ∈ parts, e ∈ part.account.outcome.errors := by
  simp [outcome, Shape.join, Placed.outcomes_eq_map, Placed.settled]

/-- A part that passes a null on leaves the branch without a value. -/
theorem exists_of_branch_none (h : (Account.branch shape parts).outcome.value = none) :
    ∃ part ∈ parts, part.account.outcome.value = none ∧ part.type.isNonNull = true := by
  simp only [outcome, Shape.join, Option.map_eq_none_iff, Placed.outcomes_eq_map] at h
  obtain ⟨s, o, hmem, ho⟩ := exists_of_allValues_eq_none h
  obtain ⟨part, hpart, heq⟩ := List.mem_map.mp hmem
  cases heq
  exact ⟨part, hpart, Outcome.settle_value_none.mp ho⟩

/-- The value of a branch has the value of each part at its segment. -/
theorem member?_of_branch_some {json : Json} {part : Placed ω σ}
    (hfit : shape.Fits (parts.map Placed.segment))
    (h : (Account.branch shape parts).outcome.value = some json) (hpart : part ∈ parts) :
    ∃ j, part.settled.value = some j ∧ json.member? part.segment = some j := by
  simp only [outcome, Shape.join, Option.map_eq_some_iff, Placed.outcomes_eq_map] at h
  obtain ⟨values, hvalues, rfl⟩ := h
  obtain ⟨hfst, hval⟩ := allValues_eq_some hvalues
  obtain ⟨j, hj, hmem⟩ := hval _ _ (List.mem_map_of_mem hpart)
  refine ⟨j, hj, Shape.member?_assemble ?_ hmem⟩
  rw [hfst, List.map_map]
  exact hfit

theorem branch_value_ne_null : (Account.branch shape parts).outcome.value ≠ some .null := by
  intro h
  simp only [outcome, Shape.join, Option.map_eq_some_iff] at h
  obtain ⟨values, _, h⟩ := h
  cases shape <;> simp [Shape.assemble] at h

/-- A null that no position took up came without errors. -/
theorem errors_of_null {account : Account ω σ} :
    account.outcome.value = some .null → account.outcome.errors = [] := by
  intro h
  induction account with
  | value json => rfl
  | failed error => simp [outcome] at h
  | answered answer account ih => exact ih h
  | branch shape parts ih => exact absurd h branch_value_ne_null

/-! ## Going down an account -/

theorem part?_branch {part : Placed ω σ} (hfit : (parts.map Placed.segment).Nodup)
    (h : part ∈ parts) : (Account.branch shape parts).part? part.segment = some part := by
  show parts.find? _ = some part
  induction parts with
  | nil => cases h
  | cons first rest ih =>
      simp only [List.map_cons, List.nodup_cons] at hfit
      rcases List.mem_cons.mp h with rfl | h
      · simp
      · have hne : first.segment ≠ part.segment := fun heq =>
          hfit.1 (heq ▸ List.mem_map_of_mem h)
        rw [List.find?_cons_of_neg (by simpa using hne)]
        exact ih hfit.2 h

theorem mem_of_part? {segment : PathSegment} {part : Placed ω σ}
    (h : (Account.branch shape parts).part? segment = some part) :
    part ∈ parts ∧ part.segment = segment :=
  ⟨List.mem_of_find?_eq_some h, by simpa using List.find?_some h⟩

theorem placed?_answered {answer : Except ResolverFailure (Resolved ω)} {account : Account ω σ} :
    ∀ path, (Account.answered answer account).placed? path = account.placed? path
  | [] => rfl
  | [_] => rfl
  | _ :: _ :: _ => rfl

theorem placed?_branch_one {part : Placed ω σ} (hfit : (parts.map Placed.segment).Nodup)
    (h : part ∈ parts) : (Account.branch shape parts).placed? [part.segment] = some part :=
  part?_branch hfit h

theorem placed?_branch_cons {part : Placed ω σ} (hfit : (parts.map Placed.segment).Nodup)
    (h : part ∈ parts) :
    ∀ {path : Path}, path ≠ [] →
      (Account.branch shape parts).placed? (part.segment :: path) = part.account.placed? path
  | [], hne => absurd rfl hne
  | _ :: _, _ => by rw [placed?, part?_branch hfit h]; rfl

/-- A place below a branch is a part, or below a part. -/
theorem exists_part_of_placed? {segment : PathSegment} {path : Path} {below : Placed ω σ}
    (h : (Account.branch shape parts).placed? (segment :: path) = some below) :
    ∃ part ∈ parts, part.segment = segment ∧
      (path = [] ∧ below = part ∨ path ≠ [] ∧ part.account.placed? path = some below) := by
  match path with
  | [] =>
      obtain ⟨hmem, hseg⟩ := mem_of_part? h
      exact ⟨below, hmem, hseg, .inl ⟨rfl, rfl⟩⟩
  | next :: rest =>
      rw [placed?, Option.bind_eq_some_iff] at h
      obtain ⟨part, hpart, hbelow⟩ := h
      obtain ⟨hmem, hseg⟩ := mem_of_part? hpart
      exact ⟨part, hmem, hseg, .inr ⟨by simp, hbelow⟩⟩

/-- Every path has a longest part whose end admits null. -/
theorem exists_isNearest (account : Account ω σ) (path : Path) :
    ∃ nearest, account.IsNearest path nearest := by
  induction path using List.reverseRecOn with
  | nil => exact ⟨[], List.prefix_rfl, .inl rfl, fun p hp _ => hp⟩
  | append_singleton path segment ih =>
      by_cases hnull : account.AdmitsNull (path ++ [segment])
      · exact ⟨_, List.prefix_rfl, hnull, fun p hp _ => hp⟩
      · obtain ⟨nearest, habove, hadmits, hlongest⟩ := ih
        refine ⟨nearest, habove.trans (List.prefix_append _ _), hadmits, ?_⟩
        intro p hp hadm
        rcases List.prefix_concat_iff.mp hp with rfl | hp
        · exact absurd hadm hnull
        · exact hlongest p hp hadm

theorem typeAt?_branch_one {part : Placed ω σ} (hfit : (parts.map Placed.segment).Nodup)
    (h : part ∈ parts) : (Account.branch shape parts).typeAt? [part.segment] = some part.type := by
  rw [typeAt?, placed?_branch_one hfit h]
  rfl

theorem typeAt?_branch_cons {part : Placed ω σ} (hfit : (parts.map Placed.segment).Nodup)
    (h : part ∈ parts) {path : Path} {type : TypeRef} (htype : part.account.typeAt? path = some type) :
    (Account.branch shape parts).typeAt? (part.segment :: path) = some type := by
  have hne : path ≠ [] := by
    rintro rfl
    simp [typeAt?, placed?] at htype
  rw [typeAt?, placed?_branch_cons hfit h hne]
  exact htype

theorem isPlace_branch_cons {part : Placed ω σ} (hfit : (parts.map Placed.segment).Nodup)
    (h : part ∈ parts) :
    ∀ {path : Path}, part.account.IsPlace path →
      (Account.branch shape parts).IsPlace (part.segment :: path)
  | [], _ => .inr (by rw [placed?_branch_one hfit h]; rfl)
  | _ :: _, hplace => by
      rcases hplace with hnil | hsome
      · cases hnil
      · exact .inr (by rw [placed?_branch_cons hfit h (by simp)]; exact hsome)

/-! ## Faithful accounts -/

/-- An account at a path whose errors stand at their own places, and whose parts have a null for a
value only where a null was resolved. -/
inductive Faithful (scope : Scope ω σ) : Path → Account ω σ → Prop
  | value {path : Path} (json : Json) : Faithful scope path (.value json)
  | failed {path : Path} {error : ResponseError} :
      error.path = path → Faithful scope path (.failed error)
  | answered {path : Path} {answer : Except ResolverFailure (Resolved ω)} {account : Account ω σ} :
      Faithful scope path account → Faithful scope path (.answered answer account)
  | branch {path : Path} {shape : Shape ω σ} {parts : List (Placed ω σ)} :
      shape.Fits (parts.map Placed.segment) →
      (∀ part ∈ parts, part.account.outcome.value = some .null → scope.NullResolved part) →
      (∀ part ∈ parts, Faithful scope (path ++ [part.segment]) part.account) →
      Faithful scope path (.branch shape parts)

variable {scope : Scope ω σ} {path : Path} {account : Account ω σ}

namespace Faithful

theorem error_place (hf : account.Faithful scope path) :
    ∀ e ∈ account.outcome.errors, ∃ below, e.path = path ++ below ∧ account.IsPlace below := by
  induction hf with
  | value json => intro e he; cases he
  | failed hpath =>
      intro e he
      cases List.mem_singleton.mp he
      exact ⟨[], by rw [hpath, List.append_nil], .inl rfl⟩
  | answered _ ih =>
      intro e he
      obtain ⟨below, heq, hplace⟩ := ih e he
      exact ⟨below, heq, hplace.imp id fun h => by rw [placed?_answered]; exact h⟩
  | branch hfit _ _ ih =>
      intro e he
      obtain ⟨part, hpart, he⟩ := mem_errors_branch.mp he
      obtain ⟨below, heq, hplace⟩ := ih part hpart e he
      exact ⟨part.segment :: below, heq.trans (List.append_cons _ _ _).symm,
        isPlace_branch_cons hfit.nodup hpart hplace⟩

/-- Where a value was made in spite of an error, a place at or above the error took up a null. -/
theorem null_above (hf : account.Faithful scope path) :
    ∀ {json : Json}, account.outcome.value = some json → ∀ e ∈ account.outcome.errors,
      ∃ below place type, e.path = path ++ below ∧ place <+: below ∧
        json.at? place = some .null ∧ account.typeAt? place = some type ∧
          type.isNonNull = false := by
  induction hf with
  | value json => intro _ _ e he; cases he
  | failed _ => intro _ hv; simp [outcome] at hv
  | answered _ ih =>
      intro json hv e he
      obtain ⟨below, place, type, heq, hpre, hnull, htype, hn⟩ := ih hv e he
      exact ⟨below, place, type, heq, hpre, hnull, by rw [typeAt?, placed?_answered]; exact htype, hn⟩
  | branch hfit _ hparts ih =>
      intro json hv e he
      obtain ⟨part, hpart, he⟩ := mem_errors_branch.mp he
      obtain ⟨j, hj, hmember⟩ := member?_of_branch_some hfit hv hpart
      have down : ∀ place, json.at? (part.segment :: place) = j.at? place := by
        intro place
        rw [Json.at?, hmember]
        rfl
      rcases Outcome.settle_value_some.mp hj with hval | ⟨_, hn, rfl⟩
      · -- The null was taken up further below.
        obtain ⟨below, place, type, heq, hpre, hnull, htype, hn⟩ := ih part hpart hval e he
        exact ⟨part.segment :: below, part.segment :: place, type,
          heq.trans (List.append_cons _ _ _).symm, (List.prefix_cons_inj _).mpr hpre,
          by rw [down, hnull], typeAt?_branch_cons hfit.nodup hpart htype, hn⟩
      · obtain ⟨below, heq, _⟩ := (hparts part hpart).error_place e he
        exact ⟨part.segment :: below, [part.segment], part.type,
          heq.trans (List.append_cons _ _ _).symm, (List.prefix_cons_inj _).mpr List.nil_prefix,
          down [], typeAt?_branch_one hfit.nodup hpart, hn⟩

/-- Where no value was made there is an error, and no type on the way to it admits null. -/
theorem exists_error (hf : account.Faithful scope path) (hv : account.outcome.value = none) :
    ∃ e ∈ account.outcome.errors, ∃ below, e.path = path ++ below ∧
      ∀ place, place <+: below → place ≠ [] →
        ∃ type, account.typeAt? place = some type ∧ type.isNonNull = true := by
  induction hf with
  | value json => simp [outcome] at hv
  | @failed _ error hpath =>
      refine ⟨error, List.mem_singleton.mpr rfl, [], by rw [hpath, List.append_nil], ?_⟩
      intro place hpre hne
      exact absurd (List.prefix_nil.mp hpre) hne
  | answered _ ih =>
      obtain ⟨e, he, below, heq, hbelow⟩ := ih hv
      refine ⟨e, he, below, heq, ?_⟩
      intro place hpre hne
      rw [typeAt?, placed?_answered]
      exact hbelow place hpre hne
  | branch hfit _ _ ih =>
      obtain ⟨part, hpart, hnone, hn⟩ := exists_of_branch_none hv
      obtain ⟨e, he, below, heq, hbelow⟩ := ih part hpart hnone
      refine ⟨e, mem_errors_branch.mpr ⟨part, hpart, he⟩, part.segment :: below,
        heq.trans (List.append_cons _ _ _).symm, ?_⟩
      intro place hpre hne
      match place, hpre, hne with
      | [], _, hne => exact absurd rfl hne
      | segment :: rest, hpre, _ =>
          obtain ⟨rfl, hbelowpre⟩ := List.cons_prefix_cons.mp hpre
          by_cases hrest : rest = []
          · subst hrest
            exact ⟨part.type, typeAt?_branch_one hfit.nodup hpart, hn⟩
          · obtain ⟨type, htype, hn⟩ := hbelow rest hbelowpre hrest
            exact ⟨type, typeAt?_branch_cons hfit.nodup hpart htype, hn⟩

/-- Errors at or below a part of a branch are errors of the part. -/
theorem mem_errors_part {shape : Shape ω σ} {parts : List (Placed ω σ)} {part : Placed ω σ}
    {below : Path} (hfit : (parts.map Placed.segment).Nodup)
    (hparts : ∀ part ∈ parts, Faithful scope (path ++ [part.segment]) part.account)
    (hpart : part ∈ parts) {e : ResponseError}
    (he : e ∈ (Account.branch shape parts).outcome.errors)
    (hpre : path ++ part.segment :: below <+: e.path) : e ∈ part.account.outcome.errors := by
  obtain ⟨other, hother, he⟩ := mem_errors_branch.mp he
  obtain ⟨rest, heq, _⟩ := (hparts other hother).error_place e he
  rw [heq, List.append_assoc, List.prefix_append_right_inj, List.singleton_append,
    List.cons_prefix_cons] at hpre
  -- The two parts have one segment, so that they are one.
  have hsame : (Account.branch shape parts).part? other.segment = some other :=
    part?_branch hfit hother
  rw [← hpre.1, part?_branch hfit hpart] at hsame
  exact Option.some.inj hsame ▸ he

/-- A null in a value was taken up for an error, or it was resolved. -/
theorem cause_of_null (hf : account.Faithful scope path) :
    ∀ {json : Json} {place : Path} {part : Placed ω σ}, account.outcome.value = some json →
      account.placed? place = some part → json.at? place = some .null →
      (∃ e ∈ account.outcome.errors, ∃ below, e.path = path ++ place ++ below ∧
        ∀ p, p <+: below → p ≠ [] →
          ∃ type, account.typeAt? (place ++ p) = some type ∧ type.isNonNull = true) ∨
      (∀ e ∈ account.outcome.errors, ¬ path ++ place <+: e.path) ∧ scope.NullResolved part := by
  induction hf with
  | value json =>
      intro _ place _ _ hplace
      match place with
      | [] => cases hplace
      | [_] => cases hplace
      | _ :: _ :: _ => cases hplace
  | failed _ => intro _ _ _ hv; simp [outcome] at hv
  | answered _ ih =>
      intro json place part hv hplace hnull
      simp only [typeAt?, placed?_answered] at hplace ⊢
      exact ih hv hplace hnull
  | @branch path shape parts hfit hresolved hparts ih =>
      intro json place below hv hplace hnull
      match place with
      | [] => cases hplace
      | segment :: rest =>
          obtain ⟨part, hpart, rfl, hbelow⟩ := exists_part_of_placed? hplace
          obtain ⟨j, hj, hmember⟩ := member?_of_branch_some hfit hv hpart
          rw [Json.at?, hmember, Option.bind_some] at hnull
          rcases hbelow with ⟨rfl, rfl⟩ | ⟨hne, hbelow⟩
          · cases Option.some.inj hnull
            rcases Outcome.settle_value_some.mp hj with hval | ⟨hval, _, _⟩
            · refine .inr ⟨?_, hresolved below hpart hval⟩
              intro e he hpre
              have hmem := mem_errors_part hfit.nodup hparts hpart he hpre
              rw [errors_of_null hval] at hmem
              cases hmem
            · obtain ⟨e, he, rest, heq, hrest⟩ := (hparts below hpart).exists_error hval
              exact .inl ⟨e, mem_errors_branch.mpr ⟨below, hpart, he⟩, rest, heq,
                fun p hpre hp => by
                  obtain ⟨type, htype, hn⟩ := hrest p hpre hp
                  exact ⟨type, typeAt?_branch_cons hfit.nodup hpart htype, hn⟩⟩
          · rcases Outcome.settle_value_some.mp hj with hval | ⟨_, _, rfl⟩
            · rcases ih part hpart hval hbelow hnull with ⟨e, he, deep, heq, hdeep⟩ | ⟨hno, hres⟩
              · refine .inl ⟨e, mem_errors_branch.mpr ⟨part, hpart, he⟩, deep, ?_, ?_⟩
                · rw [heq]
                  simp
                · intro p hpre hp
                  obtain ⟨type, htype, hn⟩ := hdeep p hpre hp
                  exact ⟨type, typeAt?_branch_cons hfit.nodup hpart htype, hn⟩
              · refine .inr ⟨?_, hres⟩
                intro e he hpre
                have hmem := mem_errors_part hfit.nodup hparts hpart he hpre
                exact hno e hmem (by simpa using hpre)
            · -- Below a null there is nothing.
              match rest, hne with
              | _ :: _, _ => simp [Json.at?, Json.member?] at hnull

end Faithful

end Account

/-! ## Accounts of an execution are faithful -/

/-- A faithful account that has a null for a value only if one was resolved. -/
def Account.Honest (scope : Scope ω σ) (path : Path) (type : TypeRef) (account : Account ω σ) : Prop :=
  account.Faithful scope path ∧ (account.outcome.value = some .null →
    ∃ answer, account.answer? = some answer ∧ scope.ResolvesNull type answer)

namespace Scope

variable {scope : Scope ω σ} {log : List (Event ω)}

/-- The children that completion leaves have faithful accounts, if jobs have honest ones. -/
theorem AccountsAll.faithful {shape : Shape ω σ} {children : List (Child ω σ)}
    {parts : List (Placed ω σ)} {path : Path} (ha : scope.AccountsAll log children parts)
    (hfit : shape.Fits (children.filterMap Child.segment?))
    (hfresh : ∀ child ∈ children, child.Fresh path)
    (ih : ∀ part ∈ parts, ∀ job, scope.Accounts log (.unstarted job) part.account →
      part.account.Honest scope job.path job.type) :
    (Account.branch shape parts).Faithful scope path := by
  have honest : ∀ part ∈ parts,
      part.account.Honest scope (path ++ [part.segment]) part.type := by
    intro part hpart
    obtain ⟨task, hmem, htask⟩ := ha.exists_task part hpart
    have hchild := hfresh _ hmem
    obtain ⟨position, account⟩ := part
    cases hchild with
    | typename key name =>
        cases htask
        exact ⟨.value _, fun hnull => by simp [Account.outcome, Placed.account] at hnull⟩
    | job hpath => exact hpath ▸ ih _ hpart _ htask
  refine .branch (ha.segments ▸ hfit) ?_ ?_
  · intro part hpart hnull
    exact (honest part hpart).2 hnull
  · intro part hpart
    exact (honest part hpart).1

theorem honest_fault {fault : FieldFault} {path : Path} {group : FieldGroup} {type : TypeRef}
    {answer : Except ResolverFailure (Resolved ω)} {account : Account ω σ}
    (ha : scope.Accounts log (fault.toTask path group) account) :
    (Account.answered answer account).Honest scope path type := by
  cases ha
  exact ⟨.answered (.failed rfl), fun hnull => by simp [Account.outcome] at hnull⟩

theorem honest_value {path : Path} {type : TypeRef} {json : Json}
    {answer : Except ResolverFailure (Resolved ω)} {account : Account ω σ}
    (ha : scope.Accounts log (.value json) account)
    (hnull : json = .null → scope.ResolvesNull type answer) :
    (Account.answered answer account).Honest scope path type := by
  cases ha
  exact ⟨.answered (.value json), fun hv => ⟨answer, rfl, hnull (Option.some.inj hv)⟩⟩

theorem honest_branch {path : Path} {type : TypeRef} {answer : Except ResolverFailure (Resolved ω)}
    {shape : Shape ω σ} {parts : List (Placed ω σ)}
    (hf : (Account.branch shape parts).Faithful scope path) :
    (Account.answered answer (.branch shape parts)).Honest scope path type :=
  ⟨.answered hf, fun hv => absurd hv Account.branch_value_ne_null⟩

/-- An account of an answer is honest, if those of the jobs below are. -/
theorem Accounts.honest_completed {account : Account ω σ} {group : FieldGroup} {type : TypeRef}
    {path : Path} {answer : Except ResolverFailure (Resolved ω)}
    (jobs : ∀ shape parts, account = .branch shape parts → ∀ part ∈ parts, ∀ job,
      scope.Accounts log (.unstarted job) part.account → part.account.Honest scope job.path job.type)
    (ha : scope.Accounts log (scope.completeAnswer group type path answer) account) :
    (Account.answered answer account).Honest scope path type := by
  have hc := scope.completes_completeAnswer group type path answer
  generalize scope.completeAnswer group type path answer = task at ha hc
  cases hc with
  | failed fault => exact honest_fault ha
  | null _ => exact honest_value ha fun _ => .null
  | scalar hitem ht hs _ => exact honest_value ha fun hk => .serialized hitem ht (hk ▸ hs)
  | enum _ _ hj => exact honest_value ha fun hk => by simp [hk, EnumType.has] at hj
  | object _ _ _ =>
      cases ha with
      | branch ha =>
          exact honest_branch (ha.faithful (scope.fits_fieldChildren _ _)
            (scope.fresh_fieldChildren _ _) (jobs _ _ rfl))
  | list _ _ =>
      cases ha with
      | branch ha =>
          exact honest_branch (ha.faithful (fits_itemChildren _ _ _ _)
            (fresh_itemChildren _ _ _ _) (jobs _ _ rfl))

/-- Accounts of an answer, and of a job, are honest. -/
theorem Accounts.honest (account : Account ω σ) :
    (∀ group type path answer,
      scope.Accounts log (scope.completeAnswer group type path answer) account →
        (Account.answered answer account).Honest scope path type) ∧
    ∀ job, scope.Accounts log (.unstarted job) account →
      account.Honest scope job.path job.type := by
  induction account with
  | value json =>
      constructor
      · intro group type path answer ha
        exact ha.honest_completed fun _ _ heq => by cases heq
      · intro job ha
        cases ha
  | failed error =>
      constructor
      · intro group type path answer ha
        exact ha.honest_completed fun _ _ heq => by cases heq
      · intro job ha
        cases ha with
        | refused _ => exact ⟨.failed rfl, fun hnull => by simp [Account.outcome] at hnull⟩
  | answered answer account ih =>
      constructor
      · intro group type path answer' ha
        exact ha.honest_completed fun _ _ heq => by cases heq
      · intro job ha
        cases ha with
        | item ha => exact ih.1 _ _ _ _ ha
        | field _ _ ha => exact ih.1 _ _ _ _ ha
  | branch shape parts ih =>
      constructor
      · intro group type path answer ha
        refine ha.honest_completed ?_
        intro shape' parts' heq part hpart
        cases heq
        exact (ih part hpart).2
      · intro job ha
        cases ha

/-- Accounts of an operation are branches, and faithful. -/
theorem WorkAccounts.faithful {kind : OperationKind} {root : ObjectType ω σ}
    {value : ObjectValue ω} {selections : List Selection} {account : Account ω σ}
    (ha : scope.WorkAccounts log (scope.operationWork kind ⟨root, value, []⟩ selections) account) :
    account.Faithful scope [] ∧ ∃ site parts, account = .branch (.object site) parts := by
  have jobs : ∀ {parts : List (Placed ω σ)}, ∀ part ∈ parts, ∀ job,
      scope.Accounts log (.unstarted job) part.account →
        part.account.Honest scope job.path job.type :=
    fun part _ => (Accounts.honest part.account).2
  have hfit := scope.fits_fieldChildren ⟨root, value, []⟩ selections
  have hfresh := scope.fresh_fieldChildren ⟨root, value, []⟩ selections
  have query : scope.WorkAccounts log (.query (scope.objectTask ⟨root, value, []⟩ selections))
      account → account.Faithful scope [] ∧ ∃ site parts, account = .branch (.object site) parts := by
    intro hquery
    cases hquery with
    | query htask =>
        cases htask with
        | branch hparts => exact ⟨hparts.faithful hfit hfresh jobs, _, _, rfl⟩
  match kind with
  | .query => exact query ha
  | .subscription => exact query ha
  | .mutation =>
      cases ha with
      | mutation ha =>
          obtain ⟨n, hn⟩ := ha.exists_take
          refine ⟨hn.faithful ?_ (fun child hc => hfresh child (List.mem_of_mem_take hc)) jobs,
            _, _, rfl⟩
          -- What is left of the fields still has distinct keys.
          have hsub := (List.take_sublist n (scope.fieldChildren ⟨root, value, []⟩ selections)).filterMap
            Child.segment?
          exact ⟨hsub.nodup hfit.1, fun s hs => hfit.2 s (hsub.subset hs)⟩

end Scope

/-! ## Nulls in responses -/

theorem Outcome.dataAt?_toResponse_none {o : Outcome} (h : o.value = none) :
    ∀ {path : Path}, o.toResponse.dataAt? path = some .null ↔ path = []
  | [] => by simp [Response.dataAt?, toResponse, h, Json.at?]
  | _ :: _ => by simp [Response.dataAt?, toResponse, h, Json.at?, Json.member?]

theorem Outcome.dataAt?_toResponse_some {o : Outcome} {entries : JsonObject}
    (h : o.value = some (.obj entries)) (path : Path) :
    o.toResponse.dataAt? path = (Json.obj entries).at? path := by
  simp [Response.dataAt?, toResponse, h, Json.asObject?]

namespace Account.Faithful

variable {scope : Scope ω σ} {site : Site ω σ} {parts : List (Placed ω σ)}

/-- The value of an object's branch is an object. -/
theorem exists_entries {json : Json}
    (h : (Account.branch (.object site) parts).outcome.value = some json) :
    ∃ entries, json = .obj entries := by
  simp only [outcome, Shape.join, Option.map_eq_some_iff] at h
  obtain ⟨values, _, rfl⟩ := h
  exact ⟨_, rfl⟩

/-- An error makes the data null no further up than it must. -/
theorem null_at_nearest (hf : (Account.branch (.object site) parts).Faithful scope [])
    {e : ResponseError} (he : e ∈ (Account.branch (.object site) parts).outcome.errors) :
    (Account.branch (.object site) parts).IsPlace e.path ∧
    ∃ nearest place, (Account.branch (.object site) parts).IsNearest e.path nearest ∧
      place <+: nearest ∧
      (Account.branch (.object site) parts).outcome.toResponse.dataAt? place = some .null := by
  obtain ⟨below, hpath, hplace⟩ := hf.error_place e he
  rw [List.nil_append] at hpath
  refine ⟨hpath ▸ hplace, ?_⟩
  obtain ⟨nearest, hnearest⟩ := exists_isNearest (Account.branch (.object site) parts) e.path
  match hv : (Account.branch (.object site) parts).outcome.value with
  | none =>
      exact ⟨nearest, [], hnearest, List.nil_prefix, (Outcome.dataAt?_toResponse_none hv).mpr rfl⟩
  | some json =>
      obtain ⟨entries, rfl⟩ := exists_entries hv
      obtain ⟨below, place, type, heq, hpre, hnull, htype, hn⟩ := hf.null_above hv e he
      rw [List.nil_append] at heq
      exact ⟨nearest, place, hnearest, hnearest.longest place (heq ▸ hpre) (.inr ⟨type, htype, hn⟩),
        by rw [Outcome.dataAt?_toResponse_some hv, hnull]⟩

/-- A null in the data goes back to an error below or at it, or was resolved. -/
theorem cause_of_null_data (hf : (Account.branch (.object site) parts).Faithful scope [])
    {place : Path} (hplace : (Account.branch (.object site) parts).IsPlace place)
    (hnull : (Account.branch (.object site) parts).outcome.toResponse.dataAt? place = some .null) :
    (∃ e ∈ (Account.branch (.object site) parts).outcome.errors,
      (Account.branch (.object site) parts).Propagates place e) ∨
    (∀ e ∈ (Account.branch (.object site) parts).outcome.errors, ¬ place <+: e.path) ∧
      ∃ part, (Account.branch (.object site) parts).placed? place = some part ∧
        scope.NullResolved part := by
  match hv : (Account.branch (.object site) parts).outcome.value with
  | none =>
      cases (Outcome.dataAt?_toResponse_none hv).mp hnull
      obtain ⟨e, he, below, hpath, hbelow⟩ := hf.exists_error hv
      rw [List.nil_append] at hpath
      subst hpath
      exact .inl ⟨e, he, List.nil_prefix, fun p _ hpre hne => hbelow p hpre hne⟩
  | some json =>
      obtain ⟨entries, rfl⟩ := exists_entries hv
      rw [Outcome.dataAt?_toResponse_some hv] at hnull
      rcases hplace with rfl | hsome
      · cases hnull
      · obtain ⟨part, hpart⟩ := Option.isSome_iff_exists.mp hsome
        rcases hf.cause_of_null hv hpart hnull with ⟨e, he, below, hpath, hbelow⟩ | ⟨hno, hres⟩
        · rw [List.nil_append] at hpath
          refine .inl ⟨e, he, hpath ▸ List.prefix_append place below, ?_⟩
          intro p hp hpre hne
          obtain ⟨rest, rfl⟩ := hp
          rw [hpath, List.prefix_append_right_inj] at hpre
          exact hbelow rest hpre fun hnil => hne (by rw [hnil, List.append_nil])
        · exact .inr ⟨hno, part, hpart, hres⟩

end Account.Faithful

/-- An account explains the errors and the nulls of a response. -/
structure Account.ExplainsNulls (scope : Scope ω σ) (account : Account ω σ) (response : Response) :
    Prop where
  /-- An error makes the data null at, or above, the nearest place that admits null. -/
  null_of_error : ∀ e ∈ response.errors, account.IsPlace e.path ∧
    ∃ nearest place, account.IsNearest e.path nearest ∧ place <+: nearest ∧
      response.dataAt? place = some .null
  /-- A null comes from an error that no type on the way could hold up, or it was resolved and there
  is no error at its place or below. -/
  cause_of_null : ∀ place, account.IsPlace place → response.dataAt? place = some .null →
    (∃ e ∈ response.errors, account.Propagates place e) ∨
    (∀ e ∈ response.errors, ¬ place <+: e.path) ∧
      ∃ part, account.placed? place = some part ∧ scope.NullResolved part

/-- Nulls spread from errors exactly as far as the types demand, and every other null was resolved. -/
theorem Schema.execute_explainsNulls {schema : Schema ω σ} {request : Request ω} {state : σ}
    {response : Response} (h : (schema.execute request state).ending = .responded response) :
    ∃ prepared account, schema.prepare request = .ok prepared ∧
      prepared.scope.WorkAccounts (schema.execute request state).events prepared.start account ∧
      response = account.outcome.toResponse ∧ account.ExplainsNulls prepared.scope response := by
  obtain ⟨prepared, account, hprepare, ha, rfl⟩ := schema.execute_accounts h
  refine ⟨prepared, account, hprepare, ha, rfl, ?_⟩
  obtain ⟨operation, root, hp⟩ := schema.exists_of_prepare hprepare
  rw [hp.start_eq] at ha
  obtain ⟨hf, site, parts, rfl⟩ := ha.faithful
  exact ⟨fun e he => hf.null_at_nearest he, fun place hplace hnull =>
    hf.cause_of_null_data hplace hnull⟩

/-- Heroes with a name each, and maybe a friend. -/
def heroDraft : SchemaDraft Unit Unit where
  query := some "Query"
  types := [
    .object (ObjectType.addField { name := "Query" } { name := "heroes", type := .list (.named "Hero") }),
    .object (ObjectType.addField
      (ObjectType.addField { name := "Hero" } { name := "name", type := .nonNullNamed "String" })
      { name := "friend", type := .named "Hero" })]

/-- Asks for two heroes, of whom the second has no name. -/
def heroRequest : Request Unit where
  document := ⟨[.plain .query
    [.plain "heroes" [.plain "name" [], .plain "friend" [.plain "name" []]]]], []⟩
  root := .json [("heroes", .arr [.obj [("name", .str "Ada")], .obj []])]
  depth := 3
  rounds := 1

/-- The second hero is null for the missing name, the friend of the first was resolved to null. -/
def heroResponse : Response where
  errors := [⟨"non-null type String! resolved to null", [], [.key "heroes", .index 1, .key "name"], []⟩]
  data := some [("heroes", .arr [.obj [("name", .str "Ada"), ("friend", .null)], .null])]

theorem heroResponse_explainsNulls :
    ∃ schema, heroDraft.build = .ok schema ∧
      (schema.execute heroRequest ()).ending = .responded heroResponse ∧
      ∃ prepared account, schema.prepare heroRequest = .ok prepared ∧
        prepared.scope.WorkAccounts (schema.execute heroRequest ()).events prepared.start account ∧
        heroResponse = account.outcome.toResponse ∧
        account.ExplainsNulls prepared.scope heroResponse :=
  have run : (Schema.execute ⟨"Query", none, heroDraft.registered,
      SchemaDraft.possibleIndex heroDraft.registered⟩ heroRequest ()).ending =
        .responded heroResponse := by decide +kernel
  ⟨_, rfl, run, Schema.execute_explainsNulls run⟩

end GraphQLEngine
