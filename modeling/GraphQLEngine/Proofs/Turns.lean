/-
Strict steps among the children of a branch.

A step can be described by two relations: the weak one holds between every task
and what becomes of it, and the strict one between those that had something to do
(`Task.StepsStrictly`).  A branch whose turns cover its unfinished children offers
one of them a step in each round, whatever its queue is, so the strict relation
holds of one child at least (`Turns.ensures_step_once`).
-/
import GraphQLEngine.Proofs.Outcome
import GraphQLEngine.Proofs.Round

namespace GraphQLEngine

variable {ω σ : Type}

/-! ## Children of which one has a strict step -/

/-- Children with weakly related tasks, and strictly related ones at one position at least. -/
inductive Child.RelOnce (R S : Task ω σ → Task ω σ → Prop) :
    List (Child ω σ) → List (Child ω σ) → Prop
  | here {position : Position} {t t' : Task ω σ} {rest rest' : List (Child ω σ)} :
      S t t' → List.Forall₂ (Child.Rel R) rest rest' →
      RelOnce R S (.mk position t :: rest) (.mk position t' :: rest')
  | later {c c' : Child ω σ} {rest rest' : List (Child ω σ)} :
      Child.Rel R c c' → RelOnce R S rest rest' → RelOnce R S (c :: rest) (c' :: rest')

/-- Where a finished child is replaced, the unfinished ones are still there. -/
theorem Child.exists_unfinished_set {children : List (Child ω σ)} {i : Nat} {c c' : Child ω σ}
    (hi : children[i]? = some c) (hc : c.isFinished = true)
    (h : ∃ d ∈ children, d.isFinished = false) : ∃ d ∈ children.set i c', d.isFinished = false := by
  obtain ⟨d, hmem, hd⟩ := h
  obtain ⟨j, hj⟩ := List.mem_iff_getElem?.mp hmem
  have hij : i ≠ j := by
    rintro rfl
    rw [hi, Option.some.injEq] at hj
    rw [← hj, hc] at hd
    cases hd
  refine ⟨d, List.mem_iff_getElem?.mpr ⟨j, ?_⟩, hd⟩
  rw [List.getElem?_set_ne hij, hj]

/-- A step that relates every task to what becomes of it, and strictly so if the task is good,
unfinished and ready.  Good tasks stay good, and finished ones finished. -/
structure Task.StepsStrictly (log : List (Event ω)) (good ready : Task ω σ → Prop)
    (R S : Task ω σ → Task ω σ → Prop) (step : Task ω σ → Action ω σ (Task ω σ)) : Prop where
  refl : ∀ t, R t t
  trans : ∀ a b c, R a b → R b c → R a c
  strict_weak : ∀ a b c, S a b → R b c → S a c
  weak_strict : ∀ a b c, R a b → S b c → S a c
  keeps : ∀ t t', R t t' → good t → good t'
  finished : ∀ t t', R t t' → good t → t.outcome? ≠ none → t'.outcome? ≠ none
  weak : ∀ t, (step t).Ensures log (R t)
  strict : ∀ t, good t → t.outcome? = none → ready t → (step t).Ensures log (S t)

namespace Task.StepsStrictly

variable {log : List (Event ω)} {good ready : Task ω σ → Prop} {R S : Task ω σ → Task ω σ → Prop}
  {step : Task ω σ → Action ω σ (Task ω σ)} {as bs cs children : List (Child ω σ)}

theorem before (h : StepsStrictly log good ready R S step) (hab : Child.RelOnce R S as bs) :
    ∀ {cs : List (Child ω σ)}, List.Forall₂ (Child.Rel R) bs cs → Child.RelOnce R S as cs := by
  induction hab with
  | here hs hrest =>
      intro cs hbc
      cases hbc with
      | cons hb hbc =>
          cases hb with
          | mk hb => exact .here (h.strict_weak _ _ _ hs hb) (Child.forall₂_trans h.trans hrest hbc)
  | later hc _ ih =>
      intro cs hbc
      cases hbc with
      | cons hb hbc => exact .later (Child.Rel.trans h.trans hc hb) (ih hbc)

theorem after (h : StepsStrictly log good ready R S step) (hbc : Child.RelOnce R S bs cs) :
    ∀ {as : List (Child ω σ)}, List.Forall₂ (Child.Rel R) as bs → Child.RelOnce R S as cs := by
  induction hbc with
  | here hs hrest =>
      intro as hab
      cases hab with
      | cons hb hab =>
          cases hb with
          | mk hb => exact .here (h.weak_strict _ _ _ hb hs) (Child.forall₂_trans h.trans hab hrest)
  | later hc _ ih =>
      intro as hab
      cases hab with
      | cons hb hab => exact .later (Child.Rel.trans h.trans hb hc) (ih hab)

/-- Putting a strictly related task in the place of one. -/
theorem set (h : StepsStrictly log good ready R S step) {position : Position} {t t' : Task ω σ}
    (hs : S t t') : ∀ {children : List (Child ω σ)} {i : Nat}, children[i]? = some (.mk position t) →
      Child.RelOnce R S children (children.set i (.mk position t'))
  | [], _, hi => by simp at hi
  | _ :: rest, 0, hi => by
      simp only [List.getElem?_cons_zero, Option.some.injEq] at hi
      exact hi ▸ .here hs (Child.forall₂_refl h.refl rest)
  | c :: rest, i + 1, hi => by
      simp only [List.getElem?_cons_succ] at hi
      exact .later (Child.Rel.refl h.refl c) (h.set hs hi)

/-- A step of a task that is unfinished is strict. -/
theorem ensures (h : StepsStrictly log good ready R S step) (t : Task ω σ) :
    (step t).Ensures log (fun t' => R t t' ∧ (good t → t.outcome? = none → ready t → S t t')) := by
  intro state hlog
  refine ⟨h.weak t state hlog, ?_⟩
  intro hgood hout hready
  exact h.strict t hgood hout hready state hlog

theorem ensures_forEach (h : StepsStrictly log good ready R S step)
    (hchildren : ∀ position t, .mk position t ∈ children →
      good t ∧ (t.outcome? = none → ready t))
    (hout : Child.outcomes? children = none) :
    (Action.forEach (Child.step step) children).Ensures log (Child.RelOnce R S children) := by
  induction children with
  | nil => cases hout
  | cons c rest ih =>
      have hlater : ∀ position t, .mk position t ∈ rest → good t ∧ (t.outcome? = none → ready t) :=
        fun position t hmem => hchildren position t (List.mem_cons_of_mem _ hmem)
      cases c with
      | absent key =>
          refine (Child.ensures_step h.weak (.absent key)).bind ?_
          intro c' hc
          refine (ih hlater (show Child.outcomes? rest = none from hout)).bind ?_
          intro rest' hrest
          exact Action.ensures_pure (.later hc hrest)
      | mk position t =>
          obtain ⟨hgood, hready⟩ := hchildren position t List.mem_cons_self
          cases ht : t.outcome? with
          | none =>
              have head : ((Child.mk position t).step step).Ensures log
                  (fun c' => ∃ t', c' = .mk position t' ∧ S t t') :=
                (h.strict t hgood ht (hready ht)).bind fun t' hs => Action.ensures_pure ⟨t', rfl, hs⟩
              refine head.bind ?_
              rintro _ ⟨t', rfl, hs⟩
              refine (Action.ensures_forEach (Child.ensures_step h.weak) rest).bind ?_
              intro rest' hrest
              exact Action.ensures_pure (.here hs hrest)
          | some o =>
              refine (Child.ensures_step h.weak (.mk position t)).bind ?_
              intro c' hc
              refine (ih hlater (Child.outcomes?_later_eq_none ht hout)).bind ?_
              intro rest' hrest
              exact Action.ensures_pure (.later hc hrest)

/-- The children with a queue are weakly related, however many of them have a step. -/
theorem ensures_stepQueued_weak (h : StepsStrictly log good ready R S step) (fuel : Nat)
    (waited : Bool) (queue : List Nat) (children : List (Child ω σ)) :
    (Turns.stepQueued step fuel waited queue children).Ensures log
      (fun r => List.Forall₂ (Child.Rel R) children r.2) :=
  (Turns.ensures_stepQueued h.refl h.trans h.weak fuel waited queue children).imp fun _ => And.left

theorem ensures_stepQueued (h : StepsStrictly log good ready R S step) :
    ∀ (fuel : Nat) (waited : Bool) (queue : List Nat) {children : List (Child ω σ)},
      queue.length ≤ fuel → (Turns.queued queue).Covers children →
      (∀ position t, .mk position t ∈ children → good t ∧ (t.outcome? = none → ready t)) →
      (∃ c ∈ children, c.isFinished = false) →
      (Turns.stepQueued step fuel waited queue children).Ensures log
        (fun r => Child.RelOnce R S children r.2)
  | fuel, waited, [], children, _, hcov, _, ⟨c, hmem, hc⟩ => by
      obtain ⟨i, hi⟩ := List.mem_iff_getElem?.mp hmem
      cases hcov i c hi hc
  | fuel + 1, waited, i :: queue, children, hfuel, hcov, hchildren, hlive => by
      have hlength : queue.length ≤ fuel := Nat.le_of_succ_le_succ hfuel
      -- A child that is finished stays so: the next one in the queue has its turn.
      have skip : ∀ c c' : Child ω σ, children[i]? = some c → Child.Rel R c c' → c.isFinished = true →
          c'.isFinished = true →
          (∀ position t, c' = .mk position t → good t ∧ (t.outcome? = none → ready t)) →
          (Turns.stepQueued step fuel false queue (children.set i c')).Ensures log
            (fun r => Child.RelOnce R S children r.2) := by
        intro c c' hi hc hf hf' hready'
        have hcov' := Turns.covers_queued_set hcov (fun _ hj => hj)
          (show c'.isFinished = false → i ∈ queue by simp [hf'])
        refine (h.ensures_stepQueued fuel false queue hlength hcov' ?_
          (Child.exists_unfinished_set hi hf hlive)).imp ?_
        · intro position t hmem
          rcases List.mem_or_eq_of_mem_set hmem with hmem | heq
          · exact hchildren position t hmem
          · exact hready' position t heq.symm
        · intro r hr
          exact h.after hr (Child.forall₂_set h.refl hc hi)
      rw [Turns.stepQueued]
      rcases hi : children[i]? with _ | ⟨position, t⟩ | key
      · exact h.ensures_stepQueued fuel waited queue hlength (Turns.covers_queued_tail hcov hi) hchildren
          hlive
      · obtain ⟨hgood, hready⟩ := hchildren position t (List.mem_of_getElem? hi)
        refine (show ((Child.mk position t).step step).Ensures log (fun c' => ∃ t', c' = .mk position t' ∧
            R t t' ∧ (good t → t.outcome? = none → ready t → S t t')) from
          (h.ensures t).bind fun t' ht => Action.ensures_pure ⟨t', rfl, ht⟩).bind ?_
        rintro _ ⟨t', rfl, hweak, hstrict⟩
        cases ht : t.outcome? with
        | none =>
            -- The child is unfinished: whatever is stepped after it, its step was strict.
            have honce := h.set (hstrict hgood ht (hready ht)) hi
            have rest : ∀ waited queue, (Turns.stepQueued step fuel waited queue
                (children.set i (.mk position t'))).Ensures log
                  (fun r => Child.RelOnce R S children r.2) := fun waited queue =>
              (h.ensures_stepQueued_weak fuel waited queue _).imp fun r hr => h.before honce hr
            dsimp only
            split
            · exact rest false queue
            · split
              · exact Action.ensures_pure honce
              · exact rest true (queue ++ [i])
        | some o =>
            have ht' := h.finished t t' hweak hgood (by rw [ht]; exact Option.some_ne_none o)
            have hf' : (Child.mk position t').isFinished = true :=
              Option.isSome_iff_ne_none.mpr ht'
            rw [if_pos hf']
            refine skip _ _ hi (.mk hweak) (by rw [Child.isFinished, ht]; rfl) hf' ?_
            rintro _ _ ⟨⟩
            exact ⟨h.keeps t t' hweak hgood, fun hnone => absurd hnone ht'⟩
      · refine (Child.ensures_step h.weak (.absent key)).bind ?_
        intro c' hc
        cases hc with
        | absent =>
            dsimp only
            rw [if_pos (show (Child.absent key : Child ω σ).isFinished = true from rfl)]
            exact skip _ _ hi .absent rfl rfl (fun _ _ heq => by cases heq)

end Task.StepsStrictly

/-- Among the children that have their turn, one is unfinished. -/
theorem Turns.ensures_step_once {log : List (Event ω)} {good ready : Task ω σ → Prop}
    {R S : Task ω σ → Task ω σ → Prop} {step : Task ω σ → Action ω σ (Task ω σ)}
    (h : Task.StepsStrictly log good ready R S step) (turns : Turns) {children : List (Child ω σ)}
    (hcov : turns.Covers children)
    (hchildren : ∀ position t, .mk position t ∈ children → good t ∧ (t.outcome? = none → ready t))
    (hout : Child.outcomes? children = none) :
    (turns.step step children).Ensures log (fun r => Child.RelOnce R S children r.2) := by
  cases turns with
  | together =>
      refine (h.ensures_forEach hchildren hout).bind ?_
      intro children' honce
      exact Action.ensures_pure honce
  | queued queue =>
      obtain ⟨i, c, hi, hc⟩ := Child.exists_unfinished hout
      have hfuel : queue.length ≤ 2 * queue.length := by omega
      refine (h.ensures_stepQueued (2 * queue.length) false queue hfuel hcov hchildren
        ⟨c, List.mem_of_getElem? hi, hc⟩).bind ?_
      intro r honce
      exact Action.ensures_pure honce

end GraphQLEngine
