/-
What readers read.

A reader that succeeds takes a run of tokens off the front of its list, and
`Reader.Reads` says how the run and the value belong together; `Reader.Gives`
speaks of the value alone.  There is one rule for each combinator.  A node is
made with the text of its run, whose significant pieces are the tokens of it.
-/
import Mathlib.Data.List.Forall2
import GraphQLEngine.Proofs.SyntaxTrees

namespace GraphQLEngine

namespace Reader

variable {α β : Type}

theorem suffix (r : Reader α) {tokens rest : List Token} {a : α} (h : r.read tokens = .ok (a, rest)) :
    rest <:+ tokens := by
  obtain ⟨run, rfl, -⟩ := r.passes h
  exact List.suffix_append run rest

theorem pure_bind_eq (a : α) (next : α → Reader β) : (Pure.pure a >>= next) = next a :=
  rfl

theorem read_bind_eq_ok {r : Reader α} {next : α → Reader β} {tokens rest : List Token} {b : β} :
    (r >>= next).read tokens = .ok (b, rest) ↔
      ∃ a left, r.read tokens = .ok (a, left) ∧ (next a).read left = .ok (b, rest) := by
  show (bind r next).read tokens = _ ↔ _
  unfold bind
  dsimp only
  cases hr : r.read tokens with
  | error offset => simp
  | ok p =>
    constructor
    · intro h
      exact ⟨p.1, p.2, rfl, h⟩
    · rintro ⟨a, left, heq, h⟩
      cases heq
      exact h

theorem read_node_eq_ok {r : Reader (NodeText → α)} {tokens rest : List Token} {a : α} :
    (node r).read tokens = .ok (a, rest) ↔
      ∃ make, r.read tokens = .ok (make, rest) ∧ a = make (textBetween tokens rest) := by
  unfold node
  dsimp only
  cases hr : r.read tokens with
  | error offset => simp
  | ok p =>
    constructor
    · intro h
      cases h
      exact ⟨p.1, rfl, rfl⟩
    · rintro ⟨make, heq, rfl⟩
      cases heq
      rfl

/-! ## Values -/

/-- All values that a reader gives have a property. -/
def Gives (r : Reader α) (P : α → Prop) : Prop :=
  ∀ tokens a rest, r.read tokens = .ok (a, rest) → P a

section

variable {r : Reader α} {next : α → Reader β} {P : α → Prop} {Q : β → Prop}

theorem gives_pure {a : α} (h : P a) : Gives (Pure.pure a) P := by
  intro tokens a' rest hread
  cases hread
  exact h

theorem gives_unexpected : Gives unexpected P := by
  intro tokens a rest hread
  cases hread

theorem gives_true (r : Reader α) : Gives r (fun _ => True) :=
  fun _ _ _ _ => trivial

theorem Gives.bind (hr : Gives r P) (h : ∀ a, P a → Gives (next a) Q) : Gives (r >>= next) Q := by
  intro tokens b rest hread
  obtain ⟨a, left, hfirst, hnext⟩ := read_bind_eq_ok.1 hread
  exact h a (hr _ _ _ hfirst) _ _ _ hnext

theorem gives_bind (h : ∀ a, Gives (next a) Q) : Gives (r >>= next) Q :=
  (gives_true r).bind fun a _ => h a

end

/-! ## Runs -/

/-- The run that a reader takes off a list of tokens stands in a relation to its value. -/
def ReadsFrom (r : Reader α) (tokens : List Token) (P : List Token → α → Prop) : Prop :=
  ∀ a rest, r.read tokens = .ok (a, rest) → ∃ run, tokens = run ++ rest ∧ P run a

/-- The same for every list. -/
def Reads (r : Reader α) (P : List Token → α → Prop) : Prop :=
  ∀ tokens, ReadsFrom r tokens P

section

variable {r : Reader α} {next : α → Reader β} {P : List Token → α → Prop}
  {Q : List Token → β → Prop}

theorem reads_pure {a : α} (h : P [] a) : Reads (Pure.pure a) P := by
  intro tokens a' rest hread
  cases hread
  exact ⟨[], rfl, h⟩

theorem reads_unexpected : Reads unexpected P := by
  intro tokens a rest hread
  cases hread

theorem Reads.imp {P' : List Token → α → Prop} (hr : Reads r P) (h : ∀ run a, P run a → P' run a) :
    Reads r P' := by
  intro tokens a rest hread
  obtain ⟨run, htokens, hrun⟩ := hr tokens a rest hread
  exact ⟨run, htokens, h run a hrun⟩

/-- What is read at all is a run. -/
theorem Gives.reads {P : α → Prop} (hr : Gives r P) : Reads r (fun _ a => P a) := by
  intro tokens a rest hread
  obtain ⟨run, htokens, -⟩ := r.passes hread
  exact ⟨run, htokens, hr tokens a rest hread⟩

/-- One reader after the other: the runs are joined. -/
theorem Reads.bind (hr : Reads r P)
    (h : ∀ run a, P run a → Reads (next a) (fun more b => Q (run ++ more) b)) :
    Reads (r >>= next) Q := by
  intro tokens b rest hread
  obtain ⟨a, left, hfirst, hnext⟩ := read_bind_eq_ok.1 hread
  obtain ⟨run, rfl, hrun⟩ := hr tokens a left hfirst
  obtain ⟨more, rfl, hmore⟩ := h run a hrun left b rest hnext
  exact ⟨run ++ more, (List.append_assoc _ _ _).symm, hmore⟩

/-- One reader after another of which nothing is known. -/
theorem reads_bind (h : ∀ run a, Reads (next a) (fun more b => Q (run ++ more) b)) :
    Reads (r >>= next) Q :=
  (gives_true r).reads.bind fun run a _ => h run a

theorem readsFrom_looking_bind {γ : Type} {look : List Token → γ} {next : γ → Reader β}
    {tokens : List Token} (h : ReadsFrom (next (look tokens)) tokens Q) :
    ReadsFrom (looking look >>= next) tokens Q :=
  h

theorem reads_looking_bind {γ : Type} {look : List Token → γ} {next : γ → Reader β}
    (h : ∀ tokens, ReadsFrom (next (look tokens)) tokens Q) : Reads (looking look >>= next) Q :=
  h

/-- A decision by the token after the next one, if it is looked at. -/
theorem readsFrom_peekSecond_bind {next : Option TokenKind → Reader β} {tokens : List Token}
    (hnone : ReadsFrom (next none) tokens Q)
    (hsome : ∀ first second rest, tokens = first :: second :: rest →
      ReadsFrom (next (some second.kind)) tokens Q) : ReadsFrom (peekSecond >>= next) tokens Q := by
  intro b left hread
  obtain ⟨second?, tokens', hpeek, hnext⟩ := read_bind_eq_ok.1 hread
  cases hpeek
  dsimp only at hnext
  split at hnext
  · next first second rest =>
    split at hnext
    · exact hnone b left hnext
    · exact hsome first second rest rfl b left hnext
  · exact hnone b left hnext

/-- A token is dropped if its kind is known not to be the end of the text. -/
theorem readsFrom_skip_bind {next : Unit → Reader β} {token : Token} {tokens : List Token}
    {k : TokenKind} (hkind : token.kind = k) (hk : k ≠ .endOfText)
    (h : ReadsFrom (next ()) tokens (fun run b => Q (token :: run) b)) :
    ReadsFrom (skip >>= next) (token :: tokens) Q := by
  intro b rest hread
  obtain ⟨_, left, hskip, hnext⟩ := read_bind_eq_ok.1 hread
  cases hskip
  rw [if_neg (hkind ▸ hk)] at hnext
  obtain ⟨run, rfl, hrun⟩ := h b rest hnext
  exact ⟨token :: run, rfl, hrun⟩

end

/-! ## Tokens -/

theorem reads_expect {k : TokenKind} (hk : k ≠ .endOfText) :
    Reads (expect k) (fun run _ => run.map Token.kind = [k]) := by
  refine reads_looking_bind fun tokens => ?_
  cases tokens with
  | nil =>
    rw [if_neg]
    · exact reads_unexpected []
    · exact fun h => hk h.symm
  | cons token rest =>
    split
    · next heq =>
      intro a left hread
      cases hread
      have hkind : token.kind ≠ .endOfText := by
        rw [show token.kind = k from heq]
        exact hk
      rw [if_neg hkind]
      exact ⟨[token], rfl, congrArg (fun k => [k]) heq⟩
    · exact reads_unexpected _

theorem reads_name : Reads name (fun run n => run.map Token.kind = [.name n]) := by
  refine reads_looking_bind fun tokens => ?_
  cases tokens with
  | nil => exact reads_unexpected []
  | cons token rest =>
    split
    · next n heq =>
      exact readsFrom_skip_bind heq TokenKind.noConfusion
        (reads_pure (congrArg (fun k => [k]) heq) rest)
    · exact reads_unexpected _

theorem reads_name? : Reads name? (fun run n? => run.map Token.kind = n?.toList.map .name) := by
  refine reads_looking_bind fun tokens => ?_
  cases tokens with
  | nil => exact reads_pure (by rfl) []
  | cons token rest =>
    split
    · next n heq =>
      exact readsFrom_skip_bind heq TokenKind.noConfusion
        (reads_pure (congrArg (fun k => [k]) heq) rest)
    · exact reads_pure (by rfl) _

/-! ## Values one after the other -/

/-- Values are read from runs that stand in a run, one after the other. -/
def EachFrom (P : List Token → α → Prop) (run : List Token) (values : List α) : Prop :=
  ∃ runs : List (List Token), runs.flatten.Sublist run ∧ List.Forall₂ P runs values

theorem EachFrom.nil (P : List Token → α → Prop) (run : List Token) : EachFrom P run [] :=
  ⟨[], List.nil_sublist run, .nil⟩

theorem EachFrom.cons {P : List Token → α → Prop} {run more : List Token} {a : α} {values : List α}
    (h : P run a) (hmore : EachFrom P more values) : EachFrom P (run ++ more) (a :: values) := by
  obtain ⟨runs, hruns, hvalues⟩ := hmore
  exact ⟨run :: runs, (List.Sublist.refl run).append hruns, .cons h hvalues⟩

theorem EachFrom.after {P : List Token → α → Prop} {more : List Token} {values : List α}
    (h : EachFrom P more values) (run : List Token) : EachFrom P (run ++ more) values := by
  obtain ⟨runs, hruns, hvalues⟩ := h
  exact ⟨runs, hruns.trans (List.sublist_append_right run more), hvalues⟩

/-- Values are read from runs that stand in a run after its first token, which is a mark. -/
def OpenedBy (opening : Char) (P : List Token → α → Prop) (run : List Token) (values : List α) :
    Prop :=
  ∃ first more, run = first ++ more ∧ first.map Token.kind = [.mark opening] ∧ EachFrom P more values

theorem OpenedBy.eachFrom {opening : Char} {P : List Token → α → Prop} {run : List Token}
    {values : List α} (h : OpenedBy opening P run values) : EachFrom P run values := by
  obtain ⟨first, more, rfl, -, hvalues⟩ := h
  exact hvalues.after first

section

variable {r : Reader α} {P : List Token → α → Prop} {opening close : Char}

theorem reads_untilMark (hr : Reads r P) (fuel : Nat) :
    Reads (untilMark close r fuel) (EachFrom P) := by
  induction fuel with
  | zero => exact reads_unexpected
  | succ fuel ih =>
    refine reads_bind fun run accepted => ?_
    split
    · exact reads_pure (.nil P _)
    · refine hr.bind fun member a ha => ih.bind fun more values hvalues => reads_pure ?_
      rw [List.append_nil]
      exact (hvalues.cons ha).after run

theorem reads_between₁ (hr : Reads r P) : Reads (between₁ opening close r) (OpenedBy opening P) := by
  refine (reads_expect TokenKind.noConfusion).bind fun run _ hrun => ?_
  refine hr.bind fun member a ha => reads_looking_bind fun tokens => ?_
  refine ((reads_untilMark hr _).bind fun more values hvalues => reads_pure ?_) tokens
  rw [List.append_nil]
  exact ⟨run, member ++ more, rfl, hrun, hvalues.cons ha⟩

theorem reads_between? (hr : Reads r P) : Reads (between? opening close r) (EachFrom P) := by
  refine reads_looking_bind fun tokens => ?_
  split
  · exact (reads_between₁ hr).imp (fun _ _ h => h.eachFrom) tokens
  · exact reads_pure (.nil P []) tokens

end

/-! ## Nodes -/

theorem filter_pieces (token : Token) :
    token.pieces.filter (fun piece => piece.kind.isSignificant) = [token.piece] := by
  rw [Token.pieces, List.filter_append, List.filter_eq_nil_iff.2, List.nil_append]
  · rfl
  · rw [List.forall_mem_map]
    exact fun _ _ => Bool.false_ne_true

theorem significant_textBetween (run rest : List Token) :
    (textBetween (run ++ rest) rest).significant = run.map Token.piece := by
  have hrun : (run ++ rest).take ((run ++ rest).length - rest.length) = run := by
    rw [List.length_append, Nat.add_sub_cancel, List.take_left]
  rw [NodeText.significant, textBetween, hrun, List.filter_flatMap, List.map_eq_flatMap]
  exact congrArg (List.flatMap · run) (funext filter_pieces)

/-- With a text of which the significant pieces are the tokens of a run after some others, a value
is made that stands in a relation to all of them. -/
def MakesAfter (head : List Token) (P : List Token → α → Prop) (run : List Token)
    (make : NodeText → α) : Prop :=
  ∀ text : NodeText, text.significant = (head ++ run).map Token.piece → P (head ++ run) (make text)

/-- A node is made with the text of what is read. -/
theorem readsFrom_node {r : Reader (NodeText → α)} {P : List Token → α → Prop} {tokens : List Token}
    (hr : ReadsFrom r tokens (MakesAfter [] P)) : ReadsFrom (node r) tokens P := by
  intro a rest hread
  obtain ⟨make, hmake, rfl⟩ := read_node_eq_ok.1 hread
  obtain ⟨run, rfl, hrun⟩ := hr make rest hmake
  exact ⟨run, rfl, hrun _ (significant_textBetween run rest)⟩

theorem reads_node {r : Reader (NodeText → α)} {P : List Token → α → Prop}
    (hr : Reads r (MakesAfter [] P)) : Reads (node r) P :=
  fun tokens => readsFrom_node (hr tokens)

end Reader

end GraphQLEngine
