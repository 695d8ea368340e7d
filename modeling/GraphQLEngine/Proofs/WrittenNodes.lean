/-
What the grammar reads is grammatical.

Each node that the readers of the grammar make starts with the words that are
asked of it, and its text is that of the run that it is read from.  So the
runs of the nodes below it, which stand in this run after its words, are in its
text (`NodeText.opens_of_run`).  The definitions of a text take all of its
tokens but the last, so that the tree of a text is lossless.
-/
import GraphQLEngine.Proofs.TokenRuns

namespace GraphQLEngine

/-! ## Nodes and their runs -/

section

variable {N : Type} {Grammatical : N → Prop} {textOf : N → NodeText}

/-- A node is grammatical, and the significant pieces of its text are the tokens of a run. -/
def IsNode (Grammatical : N → Prop) (textOf : N → NodeText) (run : List Token) (node : N) : Prop :=
  Grammatical node ∧ (textOf node).significant = run.map Token.piece

namespace Reader.EachFrom

variable {run : List Token} {nodes : List N}

theorem grammatical (h : EachFrom (IsNode Grammatical textOf) run nodes) :
    ∀ node ∈ nodes, Grammatical node := by
  obtain ⟨runs, -, hnodes⟩ := h
  induction hnodes with
  | nil => exact List.forall_mem_nil _
  | cons hnode _ ih => exact List.forall_mem_cons.2 ⟨hnode.1, ih⟩

/-- The texts of nodes stand in a run, one after the other, if the nodes are read from it so. -/
theorem sublist (h : EachFrom (IsNode Grammatical textOf) run nodes) :
    ((nodes.map textOf).flatMap NodeText.significant).Sublist (run.map Token.piece) := by
  obtain ⟨runs, hruns, hnodes⟩ := h
  have htexts : (nodes.map textOf).flatMap NodeText.significant = runs.flatten.map Token.piece := by
    clear hruns
    induction hnodes with
    | nil => rfl
    | cons hnode _ ih =>
      rw [List.map_cons, List.flatMap_cons, hnode.2, ih, List.flatten_cons, List.map_append]
  rw [htexts]
  exact hruns.map Token.piece

end Reader.EachFrom

end

/-- A text opens with the words of the tokens that it starts with, and goes on with the texts that
stand in the others. -/
theorem NodeText.opens_of_run {text : NodeText} {run head more : List Token} {words : List TokenKind}
    {below : List NodeText} (htext : text.significant = run.map Token.piece) (hrun : run = head ++ more)
    (hhead : head.map Token.kind = words)
    (hbelow : (below.flatMap NodeText.significant).Sublist (more.map Token.piece)) :
    text.Opens words below := by
  refine ⟨more.map Token.piece, ⟨head.map Token.piece, ?_, ?_⟩, hbelow⟩
  · rw [htext, hrun, List.map_append]
  · rw [← hhead, List.map_map, List.map_map]
    rfl

theorem SelectionNode.AllGrammatical.intro {nodes : List SelectionNode}
    (h : ∀ node ∈ nodes, node.Grammatical) : AllGrammatical nodes := by
  induction nodes with
  | nil => exact .nil
  | cons node rest ih =>
    rw [List.forall_mem_cons] at h
    exact .cons h.1 (ih h.2)

namespace Reader

/-! ## Selections -/

/-- A selection of the grammar, read from a run. -/
def IsSelection : List Token → SelectionNode → Prop :=
  IsNode SelectionNode.Grammatical SelectionNode.text

theorem reads_alias? :
    Reads alias? (fun run aliased => run.map Token.kind = aliasWords aliased) := by
  intro tokens
  refine readsFrom_peekSecond_bind (reads_pure (by rfl) _) ?_
  rintro first second rest rfl
  split
  · next hcolon =>
    have hsecond : second.kind = .mark ':' := Option.some.inj hcolon
    intro aliased left hread
    obtain ⟨n, after, hname, hskip⟩ := read_bind_eq_ok.1 hread
    obtain ⟨run, htokens, hrun⟩ := reads_name _ _ _ hname
    obtain ⟨token, rfl, hfirst⟩ := List.map_eq_singleton_iff.1 hrun
    cases htokens
    -- what is left after the name starts with the colon
    obtain ⟨colon, hrest, hcolon⟩ := readsFrom_skip_bind
      (Q := fun run aliased => run = [second] ∧ aliased = some n) hsecond TokenKind.noConfusion
      (reads_pure ⟨rfl, rfl⟩ rest) aliased left hskip
    obtain ⟨rfl, rfl⟩ := hcolon
    refine ⟨[first, second], congrArg (first :: ·) hrest, ?_⟩
    show [first.kind, second.kind] = [.name n, .mark ':']
    rw [hfirst, hsecond]
  · exact reads_pure (by rfl) _

section

variable {parts : SelectionParts}

theorem reads_field (hselections : Reads parts.selections (OpenedBy '\x7b' IsSelection)) :
    Reads (field parts) IsSelection := by
  refine reads_node ?_
  refine reads_alias?.bind fun aliasRun aliased haliased => reads_name.bind fun nameRun n hn => ?_
  refine reads_bind fun args argNodes => reads_bind fun dirs dirNodes => ?_
  have hhead : (aliasRun ++ nameRun).map Token.kind = fieldWords aliased n := by
    rw [List.map_append, haliased, hn, fieldWords]
  refine reads_looking_bind fun tokens => ?_
  split
  · refine (Reads.bind hselections fun set sels hset => reads_pure fun text htext => ?_) _
    have hbelow : EachFrom IsSelection (args ++ (dirs ++ set)) sels :=
      (hset.eachFrom.after dirs).after args
    have hopens : text.Opens (fieldWords aliased n) (sels.map SelectionNode.text) :=
      NodeText.opens_of_run htext (by simp) hhead hbelow.sublist
    exact ⟨.field hopens (.intro hbelow.grammatical), htext⟩
  · refine reads_pure (fun text htext => ?_) _
    have hopens : text.Opens (fieldWords aliased n) [] :=
      NodeText.opens_of_run htext (by simp) hhead (List.nil_sublist (List.map _ (args ++ dirs)))
    have hnode : SelectionNode.Grammatical
        (.field ⟨text, aliased.map some, some n, argNodes, dirNodes, none⟩) := .field hopens .nil
    exact ⟨hnode, htext⟩

theorem reads_inlineFragment (hselections : Reads parts.selections (OpenedBy '\x7b' IsSelection))
    {condition? : Option Name} {head : List Token}
    (hhead : head.map Token.kind = inlineFragmentWords condition?) :
    Reads (inlineFragment parts condition?) (MakesAfter head IsSelection) := by
  refine reads_bind fun dirs dirNodes => ?_
  refine Reads.bind hselections fun set sels hset => reads_pure fun text htext => ?_
  have hbelow : EachFrom IsSelection (dirs ++ set) sels := hset.eachFrom.after dirs
  have hopens : text.Opens (inlineFragmentWords condition?) (sels.map SelectionNode.text) :=
    NodeText.opens_of_run htext (by simp) hhead hbelow.sublist
  exact ⟨.inlineFragment hopens (.intro hbelow.grammatical), htext⟩

theorem readsFrom_fragmentSelection
    (hselections : Reads parts.selections (OpenedBy '\x7b' IsSelection)) {points : Token}
    {tokens : List Token} (hpoints : points.kind = .ellipsis) :
    ReadsFrom (fragmentSelection parts) (points :: tokens) IsSelection := by
  have hbare : [points].map Token.kind = inlineFragmentWords none := congrArg ([·]) hpoints
  refine readsFrom_node (readsFrom_peekSecond_bind (reads_unexpected _) ?_)
  rintro first second rest hfirst
  cases hfirst
  split
  · next n hn =>
    have hword : second.kind = .name n := Option.some.inj hn
    refine readsFrom_skip_bind hpoints TokenKind.noConfusion
      (readsFrom_skip_bind hword TokenKind.noConfusion ?_)
    split
    · next hon =>
      refine (reads_name.bind fun run condition hrun => ?_) rest
      have hhead : (points :: second :: run).map Token.kind =
          inlineFragmentWords (some condition) := by
        rw [List.map_cons, List.map_cons, hpoints, hword, hrun, hon]
        rfl
      exact reads_inlineFragment hselections hhead
    · refine (reads_bind fun dirs dirNodes => reads_pure fun text htext => ?_) rest
      have hhead : [points, second].map Token.kind = [.ellipsis, .name n] := by
        rw [List.map_cons, List.map_singleton, hpoints, hword]
      have hopens : text.Opens [.ellipsis, .name n] [] :=
        NodeText.opens_of_run htext (by simp) hhead (List.nil_sublist (List.map _ dirs))
      exact ⟨.spread hopens, htext⟩
  · exact readsFrom_skip_bind hpoints TokenKind.noConfusion (reads_inlineFragment hselections hbare _)
  · exact readsFrom_skip_bind hpoints TokenKind.noConfusion (reads_inlineFragment hselections hbare _)
  · exact reads_unexpected _

theorem reads_selection (hselections : Reads parts.selections (OpenedBy '\x7b' IsSelection)) :
    Reads (selection parts) IsSelection := by
  refine reads_looking_bind fun tokens => ?_
  split
  · next hpoints =>
    cases tokens with
    | nil => cases hpoints
    | cons points tokens => exact readsFrom_fragmentSelection hselections hpoints
  · exact reads_field hselections tokens

end

theorem reads_selectionSetWithin (levels : Nat) :
    Reads (selectionSetWithin levels) (OpenedBy '\x7b' IsSelection) := by
  induction levels with
  | zero => exact reads_bind fun _ _ => reads_unexpected
  | succ levels ih => exact reads_between₁ (reads_selection ih)

/-! ## Variable definitions -/

/-- Every value that is read becomes a literal. -/
theorem gives_valueOf (constness : Constness) (nested : Reader ValueNode) :
    Gives (valueOf constness nested) (fun v => v.convert.isSome) := by
  refine gives_bind fun next => ?_
  split
  · next n =>
    refine gives_bind fun _ => gives_pure ?_
    unfold nameValue
    split_ifs <;> rfl
  · exact gives_bind fun _ => gives_pure rfl
  · exact gives_bind fun _ => gives_pure rfl
  · cases constness with
    | constant => exact gives_unexpected
    | general => exact gives_bind fun _ => gives_bind fun n => gives_pure rfl
  · exact gives_bind fun items => gives_pure rfl
  · exact gives_bind fun fields => gives_pure rfl
  · exact gives_unexpected

theorem gives_withMark {type : TypeNode} (h : type.convert.isSome) :
    Gives (withMark type) (fun t => t.convert.isSome) := by
  refine gives_bind fun accepted => ?_
  split
  · refine gives_pure ?_
    rw [TypeNode.convert, Option.isSome_map]
    exact h
  · exact gives_pure h

theorem gives_typeRefOf {item : Reader TypeNode} (h : Gives item (fun t => t.convert.isSome)) :
    Gives (typeRefOf item) (fun t => t.convert.isSome) := by
  refine gives_bind fun next => ?_
  split
  · exact gives_bind fun _ => gives_withMark rfl
  · refine gives_bind fun _ => h.bind fun type htype => gives_bind fun _ => gives_withMark ?_
    rw [TypeNode.convert, Option.isSome_map]
    exact htype
  · exact gives_unexpected

/-- Every type reference that is read becomes a type. -/
theorem gives_typeRefWithin (levels : Nat) :
    Gives (typeRefWithin levels) (fun t => t.convert.isSome) := by
  induction levels with
  | zero => exact gives_typeRefOf gives_unexpected
  | succ levels ih => exact gives_typeRefOf ih

/-- A variable definition of the grammar, read from a run. -/
def IsVariableDefinition : List Token → VariableDefinitionNode → Prop :=
  IsNode VariableDefinitionNode.Grammatical VariableDefinitionNode.text

theorem reads_variableDefinition : Reads variableDefinition IsVariableDefinition := by
  refine reads_node ?_
  refine (reads_expect TokenKind.noConfusion).bind fun dollar _ hdollar => ?_
  refine reads_name.bind fun nameRun n hn => ?_
  refine (reads_expect TokenKind.noConfusion).bind fun colon _ hcolon => ?_
  refine (gives_typeRefWithin nestingLimit).reads.bind fun typeRun type htype => ?_
  have hhead : (dollar ++ (nameRun ++ colon)).map Token.kind = [.mark '$', .name n, .mark ':'] := by
    rw [List.map_append, List.map_append, hdollar, hn, hcolon]
    rfl
  have hmakes : ∀ (more : List Token) (text : NodeText) (default? : Option (Option ValueNode)),
      (convertOptional (· >>= ValueNode.convert) default?).isSome →
      text.significant = (dollar ++ (nameRun ++ (colon ++ more))).map Token.piece →
      VariableDefinitionNode.Grammatical ⟨text, some n, some type, default?⟩ := by
    intro more text default? hdefault htext
    have hopens : text.Opens [.mark '$', .name n, .mark ':'] [] :=
      NodeText.opens_of_run htext (by simp) hhead (List.nil_sublist (List.map _ more))
    exact ⟨⟨n, rfl, hopens⟩, htype, hdefault⟩
  refine reads_bind fun equals accepted => ?_
  split
  · refine (gives_valueOf .constant _).reads.bind fun valueRun v hv => ?_
    rw [pure_bind_eq]
    refine reads_bind fun dirs dirNodes => reads_pure fun text htext => ?_
    obtain ⟨literal, hliteral⟩ := Option.isSome_iff_exists.1 hv
    have hdefault : (convertOptional (· >>= ValueNode.convert) (some (some v))).isSome := by
      simp [convertOptional, hliteral]
    exact ⟨hmakes _ text _ hdefault htext, htext⟩
  · rw [pure_bind_eq]
    exact reads_bind fun dirs dirNodes => reads_pure fun text htext =>
      ⟨hmakes _ text none rfl htext, htext⟩

/-! ## Definitions -/

/-- A definition of the grammar, read from a run. -/
def IsDefinition : List Token → DefinitionNode → Prop :=
  IsNode DefinitionNode.Grammatical DefinitionNode.text

theorem reads_operation {keyword : Token} {kind : OperationKind}
    (hkeyword : keyword.kind = .name kind.text) :
    Reads (operation kind.text) (MakesAfter [keyword] IsDefinition) := by
  refine reads_name?.bind fun names name? hnames => ?_
  refine (reads_between? reads_variableDefinition).bind fun definitions defs hdefs => ?_
  refine reads_bind fun dirs dirNodes => ?_
  refine (reads_selectionSetWithin nestingLimit).bind fun set sels hset => ?_
  refine reads_pure fun text htext => ?_
  have hhead : (keyword :: names).map Token.kind = .name kind.text :: name?.toList.map .name := by
    rw [List.map_cons, hkeyword, hnames]
  have hsels : EachFrom IsSelection (dirs ++ set) sels := hset.eachFrom.after dirs
  have hbelow : ((defs.map VariableDefinitionNode.text ++ sels.map SelectionNode.text).flatMap
      NodeText.significant).Sublist ((definitions ++ (dirs ++ set)).map Token.piece) := by
    rw [List.flatMap_append, List.map_append]
    exact hdefs.sublist.append hsels.sublist
  have hopens : text.Opens (.name kind.text :: name?.toList.map .name)
      (defs.map VariableDefinitionNode.text ++ sels.map SelectionNode.text) :=
    NodeText.opens_of_run htext (by simp) hhead hbelow
  exact ⟨.full hopens hdefs.grammatical (.intro hsels.grammatical), htext⟩

theorem reads_fragment {first : Token} (hfirst : first.kind.StartsFragment) :
    Reads fragment (MakesAfter [first] IsDefinition) := by
  refine reads_looking_bind fun tokens => ?_
  split
  · exact reads_unexpected _
  · refine (reads_name.bind fun nameRun n hn => ?_) _
    refine (reads_expect TokenKind.noConfusion).bind fun onRun _ hon => ?_
    refine reads_name.bind fun conditionRun condition hcondition => reads_bind fun dirs dirNodes => ?_
    refine (reads_selectionSetWithin nestingLimit).bind fun set sels hset => ?_
    refine reads_pure fun text htext => ?_
    have hhead : (first :: (nameRun ++ (onRun ++ conditionRun))).map Token.kind =
        [first.kind, .name n, .name "on", .name condition] := by
      rw [List.map_cons, List.map_append, List.map_append, hn, hon, hcondition]
      rfl
    have hsels : EachFrom IsSelection (dirs ++ set) sels := hset.eachFrom.after dirs
    have hopens : text.Opens [first.kind, .name n, .name "on", .name condition]
        (sels.map SelectionNode.text) :=
      NodeText.opens_of_run htext (by simp) hhead hsels.sublist
    exact ⟨.intro hfirst hopens (.intro hsels.grammatical), htext⟩

/-- A definition of the type system is not empty if something is read. -/
theorem readsFrom_typeSystem {kind : Reader TypeSystemDefinition} {tokens : List Token}
    (head : List Token) (h : ReadsFrom kind tokens (fun run _ => head ++ run ≠ [])) :
    ReadsFrom (typeSystem kind) tokens (MakesAfter head IsDefinition) := by
  intro make left hread
  obtain ⟨k, left, hkind, hpure⟩ := read_bind_eq_ok.1 hread
  cases hpure
  obtain ⟨run, rfl, hrun⟩ := h k _ hkind
  refine ⟨run, rfl, fun text htext => ⟨fun hnil => hrun ?_, htext⟩⟩
  exact List.map_eq_nil_iff.1 (htext.symm.trans hnil)

/-- What starts by dropping a token takes it at least. -/
theorem readsFrom_skip_ne_nil {α : Type} {next : Unit → Reader α} {first : Token}
    {tokens : List Token} {keyword : Name} (hfirst : first.kind = .name keyword) :
    ReadsFrom (skip >>= next) (first :: tokens) (fun run _ => run ≠ []) :=
  readsFrom_skip_bind hfirst TokenKind.noConfusion
    ((gives_true _).reads.imp (fun _ _ _ => List.cons_ne_nil _ _) tokens)

theorem readsFrom_extension {first : Token} {tokens : List Token} {keyword : Name}
    (hfirst : first.kind = .name keyword) :
    ReadsFrom extension (first :: tokens) (fun run _ => run ≠ []) := by
  refine readsFrom_peekSecond_bind (reads_unexpected _) fun _ second rest heq => ?_
  split
  · split
    · exact readsFrom_skip_ne_nil hfirst
    · split
      · exact readsFrom_skip_ne_nil hfirst
      · exact reads_unexpected _
  · exact reads_unexpected _

theorem readsFrom_typeSystemDefinition {first : Token} {tokens : List Token} {keyword : Name}
    (hfirst : first.kind = .name keyword) :
    ReadsFrom typeSystemDefinition (first :: tokens) (fun run _ => run ≠ []) := by
  refine readsFrom_looking_bind ?_
  split
  · split
    · exact readsFrom_skip_ne_nil hfirst
    · split
      · exact readsFrom_skip_ne_nil hfirst
      · split
        · exact readsFrom_skip_ne_nil hfirst
        · exact reads_unexpected _
  · exact reads_unexpected _

theorem readsFrom_describedDefinition {description : Token} {tokens : List Token} {s : String}
    (hdescription : description.kind = .string s) :
    ReadsFrom describedDefinition (description :: tokens) (MakesAfter [] IsDefinition) := by
  refine readsFrom_peekSecond_bind (reads_unexpected _) fun _ second rest heq => ?_
  split
  · split
    · exact readsFrom_skip_bind hdescription TokenKind.noConfusion
        (reads_fragment (.inr ⟨s, hdescription⟩) tokens)
    · split
      · refine readsFrom_skip_bind hdescription TokenKind.noConfusion ?_
        exact readsFrom_typeSystem [description]
          ((gives_true _).reads.imp (fun _ _ _ => List.cons_ne_nil _ _) tokens)
      · exact reads_unexpected _
  · exact reads_unexpected _

theorem reads_definition : Reads definition IsDefinition := by
  rintro (_ | ⟨first, tokens⟩)
  · exact readsFrom_node (readsFrom_looking_bind (reads_unexpected []))
  refine readsFrom_node (readsFrom_looking_bind ?_)
  split
  · refine ((reads_selectionSetWithin nestingLimit).bind fun run sels hsels => ?_) _
    refine reads_pure fun text htext => ?_
    obtain ⟨brace, more, rfl, hbrace, hsels⟩ := hsels
    have hopens : text.Opens [.mark '\x7b'] (sels.map SelectionNode.text) :=
      NodeText.opens_of_run htext (by simp) hbrace hsels.sublist
    exact ⟨.shorthand hopens (.intro hsels.grammatical), htext⟩
  · next s hs => exact readsFrom_describedDefinition hs
  · next keyword hkeyword =>
    have hfirst : first.kind = .name keyword := hkeyword
    split
    · next hoperation =>
      obtain ⟨kind, rfl⟩ := OperationKind.exists_eq_text hoperation
      exact readsFrom_skip_bind hfirst TokenKind.noConfusion (reads_operation hfirst tokens)
    · split
      · next hfragment =>
        subst hfragment
        exact readsFrom_skip_bind hfirst TokenKind.noConfusion (reads_fragment (.inl hfirst) tokens)
      · split
        · exact readsFrom_typeSystem [] (readsFrom_extension hfirst)
        · exact readsFrom_typeSystem [] (readsFrom_typeSystemDefinition hfirst)
  · exact reads_unexpected _

/-- Definitions of the grammar, of which the texts make up a run. -/
def AreDefinitions (run : List Token) (ds : List DefinitionNode) : Prop :=
  (∀ d ∈ ds, d.Grammatical) ∧ run.map Token.piece = ds.flatMap (fun d => d.text.significant)

theorem AreDefinitions.nil : AreDefinitions [] [] :=
  ⟨List.forall_mem_nil _, rfl⟩

theorem AreDefinitions.cons {run more : List Token} {d : DefinitionNode} {ds : List DefinitionNode}
    (hd : IsDefinition run d) (hds : AreDefinitions more ds) :
    AreDefinitions (run ++ more) (d :: ds) := by
  refine ⟨List.forall_mem_cons.2 ⟨hd.1, hds.1⟩, ?_⟩
  rw [List.map_append, List.flatMap_cons, ← hd.2, hds.2]

theorem reads_definitionsUntilEnd (fuel : Nat) : Reads (definitionsUntilEnd fuel) AreDefinitions := by
  induction fuel with
  | zero => exact reads_unexpected
  | succ fuel ih =>
    refine reads_looking_bind fun tokens => ?_
    split
    · exact reads_pure .nil tokens
    · refine (reads_definition.bind fun run d hd => ih.bind fun more ds hds => reads_pure ?_) tokens
      rw [List.append_nil]
      exact hds.cons hd

theorem reads_definitions : Reads definitions AreDefinitions := by
  refine reads_definition.bind fun run d hd => reads_looking_bind fun tokens => ?_
  refine ((reads_definitionsUntilEnd _).bind fun more ds hds => reads_pure ?_) tokens
  rw [List.append_nil]
  exact hds.cons hd

/-- What is left after all definitions is the end of the text. -/
theorem read_definitionsUntilEnd_left {fuel : Nat} {tokens left : List Token}
    {ds : List DefinitionNode} (h : (definitionsUntilEnd fuel).read tokens = .ok (ds, left)) :
    left.head?.elim .endOfText Token.kind = .endOfText := by
  induction fuel generalizing tokens ds with
  | zero => cases h
  | succ fuel ih =>
    obtain ⟨kind, left', hpeek, h⟩ := read_bind_eq_ok.1 h
    cases hpeek
    split at h
    · next hend =>
      cases h
      exact hend
    · obtain ⟨d, left', hd, h⟩ := read_bind_eq_ok.1 h
      obtain ⟨later, left', hlater, h⟩ := read_bind_eq_ok.1 h
      cases h
      exact ih hlater

theorem read_definitions_left {tokens left : List Token} {ds : List DefinitionNode}
    (h : definitions.read tokens = .ok (ds, left)) :
    left.head?.elim .endOfText Token.kind = .endOfText := by
  obtain ⟨d, left', hd, h⟩ := read_bind_eq_ok.1 h
  obtain ⟨fuel, left', hfuel, h⟩ := read_bind_eq_ok.1 h
  obtain ⟨later, left', hlater, h⟩ := read_bind_eq_ok.1 h
  cases h
  exact read_definitionsUntilEnd_left hlater

end Reader

/-! ## The tree of a text -/

/-- Two ways to part a list where its end first stands are the same. -/
theorem Token.eq_of_append_eq_append {tokens run ends left : List Token}
    (h : tokens ++ ends = run ++ left) (htokens : ∀ token ∈ tokens, token.kind ≠ .endOfText)
    (hrun : ∀ token ∈ run, token.kind ≠ .endOfText)
    (hends : ends.head?.elim .endOfText Token.kind = .endOfText)
    (hleft : left.head?.elim .endOfText Token.kind = .endOfText) : tokens = run := by
  have hstop : ∀ {before after : List Token}, (∀ token ∈ before, token.kind ≠ .endOfText) →
      after.head?.elim .endOfText Token.kind = .endOfText →
      (before ++ after).takeWhile (fun token => token.kind != .endOfText) = before := by
    intro before after hbefore hafter
    rw [List.takeWhile_append_of_pos (fun token h => bne_iff_ne.2 (hbefore token h))]
    cases after with
    | nil => rw [List.takeWhile_nil, List.append_nil]
    | cons token after =>
      rw [List.takeWhile_cons_of_neg, List.append_nil]
      simpa using hafter
  rw [← hstop htokens hends, h, hstop hrun hleft]

namespace SyntaxTree

variable {source : String}

theorem read_ofSource (h : (ofSource source).errors = []) :
    (Tokens.ofSource source).invalid = [] ∧ ∃ left, Reader.definitions.read
      (Tokens.ofSource source).tokens = .ok ((ofSource source).definitions, left) := by
  unfold ofSource at h ⊢
  dsimp only at h ⊢
  split at h
  · next hinvalid hread =>
    simp only [hinvalid, hread]
    exact ⟨trivial, _, rfl⟩
  · cases h
  · cases h
  · cases h

/-- The tree of a text without errors keeps the whole text, and its nodes are those of the grammar. -/
theorem lossless_ofSource (h : (ofSource source).errors = []) :
    (ofSource source).Lossless source ∧ (ofSource source).Grammatical := by
  obtain ⟨hvalid, left, hread⟩ := read_ofSource h
  obtain ⟨pieces, tokens, last, htokens, hlast, hnone, hcovers, hpieces⟩ :=
    Tokens.covered_ofSource hvalid
  obtain ⟨run, hrun, hgrammar, hdefinitions⟩ := Reader.reads_definitions _ _ _ hread
  obtain ⟨passed, hpassed, hnoEnd⟩ := Reader.definitions.passes hread
  obtain rfl := List.append_cancel_right (hrun.symm.trans hpassed)
  have hsame : tokens = run := Token.eq_of_append_eq_append (htokens.symm.trans hrun) hnone hnoEnd
    hlast (Reader.read_definitions_left hread)
  refine ⟨⟨pieces, hcovers, ?_⟩, hgrammar⟩
  rw [hpieces, hsame, hdefinitions]

end SyntaxTree

/-- A text without errors has a well-formed tree. -/
theorem faithful_ofSource : Faithful SyntaxTree.ofSource := by
  intro source h
  obtain ⟨hlossless, hgrammar⟩ := SyntaxTree.lossless_ofSource h
  exact hlossless.wellFormed hgrammar

end GraphQLEngine
