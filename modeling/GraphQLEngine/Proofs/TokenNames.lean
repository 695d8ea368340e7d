/-
Names in a tree are name tokens of the text.

`Reader.GivesFrom P r Q` says that the reader `r` gives values with `Q`
whenever the name tokens in its list have `P`.  There is one rule for each
combinator, and every reader of the grammar gives nodes whose names have `P`,
because it makes a name from a name token only.  With "is a name token of the
text" for `P`, all names in the tree of a text are such tokens.
-/
import GraphQLEngine.Proofs.DocumentNames
import GraphQLEngine.Proofs.TokenRuns

namespace GraphQLEngine

namespace Reader

variable {α β : Type}

/-! ## Rules for the combinators -/

/-- All values that a reader gives have a property if the names among its tokens have one. -/
def GivesFrom (P : Name → Prop) (r : Reader α) (Q : α → Prop) : Prop :=
  ∀ tokens a rest, (∀ n, .name n ∈ tokens.map Token.kind → P n) → r.read tokens = .ok (a, rest) → Q a

section

variable {P : Name → Prop} {r : Reader α} {next : α → Reader β} {Q : α → Prop} {R : β → Prop}

theorem Gives.givesFrom (h : Gives r Q) : GivesFrom P r Q :=
  fun tokens a rest _ hread => h tokens a rest hread

theorem givesFrom_pure {a : α} (h : Q a) : GivesFrom P (Pure.pure a) Q :=
  (gives_pure h).givesFrom

theorem givesFrom_unexpected : GivesFrom P unexpected Q :=
  gives_unexpected.givesFrom

theorem GivesFrom.imp {Q' : α → Prop} (hr : GivesFrom P r Q) (h : ∀ a, Q a → Q' a) :
    GivesFrom P r Q' :=
  fun tokens a rest hnames hread => h a (hr tokens a rest hnames hread)

/-- The second reader is left some of the tokens that the first one has. -/
theorem GivesFrom.bind (hr : GivesFrom P r Q) (h : ∀ a, Q a → GivesFrom P (next a) R) :
    GivesFrom P (r >>= next) R := by
  intro tokens b rest hnames hread
  obtain ⟨a, left, hfirst, hnext⟩ := read_bind_eq_ok.1 hread
  have hleft : left.map Token.kind ⊆ tokens.map Token.kind :=
    List.map_subset _ (r.suffix hfirst).subset
  exact h a (hr _ _ _ hnames hfirst) _ _ _ (fun n hn => hnames n (hleft hn)) hnext

theorem givesFrom_bind (h : ∀ a, GivesFrom P (next a) R) : GivesFrom P (r >>= next) R :=
  (gives_true r).givesFrom.bind fun a _ => h a

theorem givesFrom_pure_bind {a : α} (h : GivesFrom P (next a) R) :
    GivesFrom P (Pure.pure a >>= next) R :=
  h

theorem givesFrom_peek : GivesFrom P peek (fun k => ∀ n, k = .name n → P n) := by
  intro tokens k rest hnames hread n hk
  cases hread
  cases tokens with
  | nil => cases hk
  | cons token tokens => exact hnames n (hk ▸ List.mem_cons_self)

theorem givesFrom_peekSecond : GivesFrom P peekSecond (fun k? => ∀ n, k? = some (.name n) → P n) := by
  intro tokens k? rest hnames hread n hk
  cases hread
  dsimp only at hk
  split at hk
  · next first second more =>
    split at hk
    · cases hk
    · have hkind : second.kind = .name n := Option.some.inj hk
      exact hnames n (hkind ▸ List.mem_cons_of_mem _ List.mem_cons_self)
  · cases hk

theorem givesFrom_name : GivesFrom P name P := by
  refine givesFrom_peek.bind fun k hk => ?_
  split
  · next n => exact givesFrom_bind fun _ => givesFrom_pure (hk n rfl)
  · exact givesFrom_unexpected

theorem givesFrom_name? : GivesFrom P name? (fun n? => ∀ n ∈ n?.toList, P n) := by
  refine givesFrom_peek.bind fun k hk => ?_
  split
  · next n => exact givesFrom_bind fun _ => givesFrom_pure (List.forall_mem_singleton.2 (hk n rfl))
  · exact givesFrom_pure (List.forall_mem_nil _)

theorem givesFrom_untilMark {close : Char} (hr : GivesFrom P r Q) (fuel : Nat) :
    GivesFrom P (untilMark close r fuel) (fun l => ∀ a ∈ l, Q a) := by
  induction fuel with
  | zero => exact givesFrom_unexpected
  | succ fuel ih =>
    refine givesFrom_bind fun accepted => ?_
    split
    · exact givesFrom_pure (List.forall_mem_nil _)
    · exact hr.bind fun _ ha => ih.bind fun _ hl => givesFrom_pure (List.forall_mem_cons.2 ⟨ha, hl⟩)

theorem givesFrom_between {opening close : Char} (hr : GivesFrom P r Q) :
    GivesFrom P (between opening close r) (fun l => ∀ a ∈ l, Q a) :=
  givesFrom_bind fun _ => givesFrom_bind fun fuel => givesFrom_untilMark hr fuel

theorem givesFrom_between₁ {opening close : Char} (hr : GivesFrom P r Q) :
    GivesFrom P (between₁ opening close r) (fun l => ∀ a ∈ l, Q a) :=
  givesFrom_bind fun _ => hr.bind fun _ ha => givesFrom_bind fun fuel =>
    (givesFrom_untilMark hr fuel).bind fun _ hl => givesFrom_pure (List.forall_mem_cons.2 ⟨ha, hl⟩)

theorem givesFrom_between? {opening close : Char} (hr : GivesFrom P r Q) :
    GivesFrom P (between? opening close r) (fun l => ∀ a ∈ l, Q a) := by
  refine givesFrom_bind fun k => ?_
  split
  · exact givesFrom_between₁ hr
  · exact givesFrom_pure (List.forall_mem_nil _)

theorem givesFrom_after {mark : Char} (hr : GivesFrom P r Q) (fuel : Nat) :
    GivesFrom P (after mark r fuel) (fun l => ∀ a ∈ l, Q a) := by
  induction fuel with
  | zero => exact givesFrom_pure (List.forall_mem_nil _)
  | succ fuel ih =>
    refine givesFrom_bind fun accepted => ?_
    split
    · exact hr.bind fun _ ha => ih.bind fun _ hl => givesFrom_pure (List.forall_mem_cons.2 ⟨ha, hl⟩)
    · exact givesFrom_pure (List.forall_mem_nil _)

end

/-! ## Types and values -/

/-- The names in what a reader gives are among those of its tokens. -/
def GivesNames (P : Name → Prop) (r : Reader α) (names : α → List Name) : Prop :=
  GivesFrom P r (fun a => ∀ n ∈ names a, P n)

/-- The names in what a reader makes with any text are among those of its tokens. -/
def MakesNames (P : Name → Prop) (r : Reader (NodeText → α)) (names : α → List Name) : Prop :=
  GivesFrom P r (fun make => ∀ text, ∀ n ∈ names (make text), P n)

theorem givesNames_node {P : Name → Prop} {r : Reader (NodeText → α)} {names : α → List Name}
    (h : MakesNames P r names) : GivesNames P (node r) names := by
  intro tokens a rest hnames hread
  obtain ⟨make, hmake, rfl⟩ := read_node_eq_ok.1 hread
  exact h tokens make rest hnames hmake _

section

variable {P : Name → Prop}

theorem givesNames_withMark {type : TypeNode} (h : ∀ n ∈ type.names, P n) :
    GivesNames P (withMark type) TypeNode.names := by
  refine givesFrom_bind fun accepted => ?_
  split
  · exact givesFrom_pure h
  · exact givesFrom_pure h

theorem givesNames_typeRefOf {item : Reader TypeNode} (h : GivesNames P item TypeNode.names) :
    GivesNames P (typeRefOf item) TypeNode.names := by
  refine givesFrom_peek.bind fun k hk => ?_
  split
  · next n => exact givesFrom_bind fun _ => givesNames_withMark (List.forall_mem_singleton.2 (hk n rfl))
  · exact givesFrom_bind fun _ => h.bind fun type htype => givesFrom_bind fun _ =>
      givesNames_withMark htype
  · exact givesFrom_unexpected

theorem givesNames_typeRefWithin (levels : Nat) :
    GivesNames P (typeRefWithin levels) TypeNode.names := by
  induction levels with
  | zero => exact givesNames_typeRefOf givesFrom_unexpected
  | succ levels ih => exact givesNames_typeRefOf ih

theorem names_nameValue {n : Name} (h : P n) : ∀ m ∈ (nameValue n).names, P m := by
  unfold nameValue
  split_ifs
  · exact List.forall_mem_nil _
  · exact List.forall_mem_nil _
  · exact List.forall_mem_nil _
  · exact List.forall_mem_singleton.2 h

theorem givesNames_objectField {nested : Reader ValueNode} (h : GivesNames P nested ValueNode.names) :
    GivesNames P (objectField nested) (fun f => f.1.toList ++ f.2.elim [] ValueNode.names) := by
  refine givesFrom_name.bind fun n hn => givesFrom_bind fun accepted => ?_
  split
  · exact h.bind fun _ hv => givesFrom_pure (List.forall_mem_cons.2 ⟨hn, hv⟩)
  · exact givesFrom_pure (List.forall_mem_singleton.2 hn)

theorem givesNames_valueOf (constness : Constness) {nested : Reader ValueNode}
    (h : GivesNames P nested ValueNode.names) :
    GivesNames P (valueOf constness nested) ValueNode.names := by
  refine givesFrom_peek.bind fun k hk => ?_
  split
  · next n => exact givesFrom_bind fun _ => givesFrom_pure (names_nameValue (hk n rfl))
  · exact givesFrom_bind fun _ => givesFrom_pure (List.forall_mem_nil _)
  · exact givesFrom_bind fun _ => givesFrom_pure (List.forall_mem_nil _)
  · cases constness with
    | constant => exact givesFrom_unexpected
    | general =>
      exact givesFrom_bind fun _ => givesFrom_name.bind fun n hn =>
        givesFrom_pure (List.forall_mem_singleton.2 hn)
  · refine (givesFrom_between h).bind fun items hitems => givesFrom_pure ?_
    rw [ValueNode.names, ValueNode.namesOfItems_eq_flatMap, List.forall_mem_flatMap]
    exact hitems
  · refine (givesFrom_between (givesNames_objectField h)).bind fun fields hfields => givesFrom_pure ?_
    rw [ValueNode.names, ValueNode.namesOfFields_eq_flatMap, List.forall_mem_flatMap]
    exact hfields
  · exact givesFrom_unexpected

theorem givesNames_valueWithin (constness : Constness) (levels : Nat) :
    GivesNames P (valueWithin constness levels) ValueNode.names := by
  induction levels with
  | zero => exact givesNames_valueOf constness givesFrom_unexpected
  | succ levels ih => exact givesNames_valueOf constness ih

/-! ## Arguments and directives -/

section

variable {value : Reader ValueNode}

theorem givesNames_argument (h : GivesNames P value ValueNode.names) :
    GivesNames P (argument value) ArgumentNode.names := by
  refine givesFrom_name.bind fun n hn => givesFrom_bind fun accepted => ?_
  split
  · exact h.bind fun v hv => givesFrom_pure (List.forall_mem_cons.2 ⟨hn, hv⟩)
  · exact givesFrom_pure (List.forall_mem_singleton.2 hn)

theorem givesNames_arguments (h : GivesNames P value ValueNode.names) :
    GivesNames P (arguments value) (List.flatMap ArgumentNode.names) :=
  (givesFrom_between? (givesNames_argument h)).imp fun _ => List.forall_mem_flatMap.2

theorem givesNames_directive (h : GivesNames P value ValueNode.names) :
    GivesNames P (directive value) DirectiveNode.names :=
  givesFrom_name.bind fun _ hn => (givesNames_arguments h).bind fun _ hargs =>
    givesFrom_pure (List.forall_mem_cons.2 ⟨hn, hargs⟩)

theorem givesNames_directives (h : GivesNames P value ValueNode.names) :
    GivesNames P (directives value) (List.flatMap DirectiveNode.names) :=
  givesFrom_bind fun fuel =>
    (givesFrom_after (givesNames_directive h) fuel).imp fun _ => List.forall_mem_flatMap.2

end

/-! ## Selections -/

theorem givesFrom_alias? : GivesFrom P alias? (fun n? => ∀ n ∈ n?.toList, P n) := by
  refine givesFrom_bind fun k? => ?_
  split
  · exact givesFrom_name.bind fun n hn => givesFrom_bind fun _ =>
      givesFrom_pure (List.forall_mem_singleton.2 hn)
  · exact givesFrom_pure (List.forall_mem_nil _)

section

variable {parts : SelectionParts}

theorem givesNames_field (hvalue : GivesNames P parts.value ValueNode.names)
    (hselections : GivesNames P parts.selections SelectionNode.namesOfAll) :
    GivesNames P (field parts) SelectionNode.names := by
  refine givesNames_node (givesFrom_alias?.bind fun aliased haliased => ?_)
  refine givesFrom_name.bind fun n hn => (givesNames_arguments hvalue).bind fun args hargs => ?_
  refine (givesNames_directives hvalue).bind fun dirs hdirs => givesFrom_bind fun k => ?_
  have hjoin : (aliased.map some).join = aliased := by cases aliased <;> rfl
  split
  · refine hselections.bind fun sels hsels => givesFrom_pure_bind (givesFrom_pure fun text => ?_)
    rw [SelectionNode.names, hjoin]
    simp only [List.forall_mem_append]
    exact ⟨haliased, List.forall_mem_singleton.2 hn, hargs, hdirs, hsels⟩
  · refine givesFrom_pure_bind (givesFrom_pure fun text => ?_)
    rw [SelectionNode.names, hjoin]
    simp only [List.forall_mem_append]
    exact ⟨haliased, List.forall_mem_singleton.2 hn, hargs, hdirs, List.forall_mem_nil _⟩

theorem makesNames_inlineFragment (hvalue : GivesNames P parts.value ValueNode.names)
    (hselections : GivesNames P parts.selections SelectionNode.namesOfAll)
    {condition : Option Name} (hcondition : ∀ n ∈ condition.toList, P n) :
    MakesNames P (inlineFragment parts condition) SelectionNode.names := by
  refine (givesNames_directives hvalue).bind fun dirs hdirs => hselections.bind fun sels hsels =>
    givesFrom_pure fun text => ?_
  have hjoin : (condition.map some).join = condition := by cases condition <;> rfl
  rw [SelectionNode.names, hjoin]
  simp only [List.forall_mem_append]
  exact ⟨hcondition, hdirs, hsels⟩

theorem givesNames_fragmentSelection (hvalue : GivesNames P parts.value ValueNode.names)
    (hselections : GivesNames P parts.selections SelectionNode.namesOfAll) :
    GivesNames P (fragmentSelection parts) SelectionNode.names := by
  refine givesNames_node (givesFrom_peekSecond.bind fun k? hk => ?_)
  have hnone : ∀ n ∈ (none : Option Name).toList, P n := List.forall_mem_nil _
  have hinline := makesNames_inlineFragment hvalue hselections hnone
  split
  · next n =>
    refine givesFrom_bind fun _ => givesFrom_bind fun _ => ?_
    split
    · exact givesFrom_name.bind fun condition hcondition =>
        makesNames_inlineFragment hvalue hselections (List.forall_mem_singleton.2 hcondition)
    · exact (givesNames_directives hvalue).bind fun dirs hdirs =>
        givesFrom_pure fun text => List.forall_mem_cons.2 ⟨hk n rfl, hdirs⟩
  · exact givesFrom_bind fun _ => hinline
  · exact givesFrom_bind fun _ => hinline
  · exact givesFrom_unexpected

theorem givesNames_selection (hvalue : GivesNames P parts.value ValueNode.names)
    (hselections : GivesNames P parts.selections SelectionNode.namesOfAll) :
    GivesNames P (selection parts) SelectionNode.names := by
  refine givesFrom_bind fun k => ?_
  split
  · exact givesNames_fragmentSelection hvalue hselections
  · exact givesNames_field hvalue hselections

end

theorem givesNames_selectionSetWithin (levels : Nat) :
    GivesNames P (selectionSetWithin levels) SelectionNode.namesOfAll := by
  induction levels with
  | zero => exact givesFrom_bind fun _ => givesFrom_unexpected
  | succ levels ih =>
    refine (givesFrom_between₁ (givesNames_selection (givesNames_valueWithin _ _) ih)).imp
      fun sels hsels => ?_
    rw [SelectionNode.namesOfAll_eq_flatMap]
    exact List.forall_mem_flatMap.2 hsels

/-! ## Definitions -/

theorem givesNames_variableDefinition :
    GivesNames P variableDefinition VariableDefinitionNode.names := by
  refine givesNames_node (givesFrom_bind fun _ => givesFrom_name.bind fun n hn => ?_)
  refine givesFrom_bind fun _ => (givesNames_typeRefWithin nestingLimit).bind fun type htype => ?_
  refine givesFrom_bind fun accepted => ?_
  split
  · refine (givesNames_valueWithin .constant nestingLimit).bind fun v hv => givesFrom_pure_bind ?_
    refine givesFrom_bind fun _ => givesFrom_pure fun text => ?_
    simp only [VariableDefinitionNode.names, List.forall_mem_append]
    exact ⟨List.forall_mem_singleton.2 hn, htype, hv⟩
  · refine givesFrom_pure_bind (givesFrom_bind fun _ => givesFrom_pure fun text => ?_)
    simp only [VariableDefinitionNode.names, List.forall_mem_append]
    exact ⟨List.forall_mem_singleton.2 hn, htype, List.forall_mem_nil _⟩

theorem makesNames_operation (keyword : Name) :
    MakesNames P (operation keyword) DefinitionNode.names := by
  refine givesFrom_name?.bind fun n? hn => ?_
  refine (givesFrom_between? givesNames_variableDefinition).bind fun defs hdefs => ?_
  refine (givesNames_directives (givesNames_valueWithin _ _)).bind fun dirs hdirs => ?_
  refine (givesNames_selectionSetWithin nestingLimit).bind fun sels hsels =>
    givesFrom_pure fun text => ?_
  simp only [DefinitionNode.names, OperationNode.names, List.forall_mem_append]
  exact ⟨hn, List.forall_mem_flatMap.2 hdefs, hdirs, hsels⟩

theorem makesNames_fragment : MakesNames P fragment DefinitionNode.names := by
  refine givesFrom_bind fun k => ?_
  split
  · exact givesFrom_unexpected
  · refine givesFrom_name.bind fun n hn => givesFrom_bind fun _ => ?_
    refine givesFrom_name.bind fun condition hcondition => ?_
    refine (givesNames_directives (givesNames_valueWithin _ _)).bind fun dirs hdirs => ?_
    refine (givesNames_selectionSetWithin nestingLimit).bind fun sels hsels =>
      givesFrom_pure fun text => ?_
    simp only [DefinitionNode.names, FragmentNode.names, List.forall_mem_append]
    exact ⟨List.forall_mem_singleton.2 hn, List.forall_mem_singleton.2 hcondition, hdirs, hsels⟩

/-- A definition of the type system keeps no names. -/
theorem makesNames_typeSystem (kind : Reader TypeSystemDefinition) :
    MakesNames P (typeSystem kind) DefinitionNode.names :=
  givesFrom_bind fun _ => givesFrom_pure fun _ => List.forall_mem_nil _

theorem makesNames_describedDefinition : MakesNames P describedDefinition DefinitionNode.names := by
  refine givesFrom_bind fun k? => ?_
  split
  · split
    · exact givesFrom_bind fun _ => makesNames_fragment
    · split
      · exact givesFrom_bind fun _ => makesNames_typeSystem _
      · exact givesFrom_unexpected
  · exact givesFrom_unexpected

theorem givesNames_definition : GivesNames P definition DefinitionNode.names := by
  refine givesNames_node (givesFrom_bind fun k => ?_)
  split
  · exact (givesNames_selectionSetWithin nestingLimit).bind fun sels hsels =>
      givesFrom_pure fun _ => hsels
  · exact makesNames_describedDefinition
  · split
    · exact givesFrom_bind fun _ => makesNames_operation _
    · split
      · exact givesFrom_bind fun _ => makesNames_fragment
      · split
        · exact makesNames_typeSystem _
        · exact makesNames_typeSystem _
  · exact givesFrom_unexpected

theorem givesNames_definitionsUntilEnd (fuel : Nat) :
    GivesNames P (definitionsUntilEnd fuel) (List.flatMap DefinitionNode.names) := by
  induction fuel with
  | zero => exact givesFrom_unexpected
  | succ fuel ih =>
    refine givesFrom_bind fun k => ?_
    split
    · exact givesFrom_pure (List.forall_mem_nil _)
    · exact givesNames_definition.bind fun d hd => ih.bind fun ds hds =>
        givesFrom_pure (List.forall_mem_append.2 ⟨hd, hds⟩)

theorem givesNames_definitions : GivesNames P definitions (List.flatMap DefinitionNode.names) :=
  givesNames_definition.bind fun _ hd => givesFrom_bind fun fuel =>
    (givesNames_definitionsUntilEnd fuel).bind fun _ hds =>
      givesFrom_pure (List.forall_mem_append.2 ⟨hd, hds⟩)

end

end Reader

/-! ## Trees of texts -/

/-- Every name in a tree is a name token of the text, as a lexer splits it. -/
def SyntaxTree.NamesAreTokens (source : String) (tree : SyntaxTree) : Prop :=
  ∀ n ∈ tree.names, .name n ∈ (Tokens.ofSource source).tokens.map Token.kind

/-- The parser of this library takes names from tokens only. -/
theorem SyntaxTree.namesAreTokens_ofSource (source : String) :
    (ofSource source).NamesAreTokens source := by
  unfold NamesAreTokens ofSource
  dsimp only
  split
  · next hread => exact Reader.givesNames_definitions _ _ _ (fun _ hn => hn) hread
  · exact List.forall_mem_nil _
  · exact List.forall_mem_nil _
  · exact List.forall_mem_nil _

end GraphQLEngine
