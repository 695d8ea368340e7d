/-
Well-formed syntax trees.

The conversion of a tree relies on three things: no definition lacks a part,
definitions are listed in the order of the text, and each starts at a
character.  `SyntaxTree.WellFormed` says so of one tree.  A parser is
`Faithful` if each of its trees is well-formed or has a syntax error.

What a parser of whole texts promises of its trees says nothing of places.  A
tree is `Lossless` if pieces cover the text and the significant ones are those
of its definitions; it is `Grammatical` if every node is written by the rule of
the grammar for it: first words of its own, and the texts of the nodes below
among the rest.  Then every node has a first token, these tokens stand in the
order of the text (`SyntaxTree.Lossless.startIn`), and the tree is well-formed.
-/
import Mathlib.Data.List.Flatten
import GraphQLEngine.Document.Reading
import GraphQLEngine.Proofs.TokenOrder

namespace GraphQLEngine

/-! ## Complete definitions -/

/-- Nothing that the conversion needs is missing. -/
structure OperationNode.Complete (node : OperationNode) : Prop where
  kind : node.kind?.isSome
  selections : node.selections?.isSome

/-- Nothing that the conversion needs is missing. -/
structure FragmentNode.Complete (node : FragmentNode) : Prop where
  name : node.name?.isSome
  typeCondition : node.typeCondition?.join.isSome
  selections : node.selections?.isSome

def DefinitionNode.Complete : DefinitionNode → Prop
  | .operation node => node.Complete
  | .fragment node => node.Complete
  | .typeSystem _ _ => True

/-- What the conversion relies on in the tree of a text. -/
structure SyntaxTree.WellFormed (text : List Char) (tree : SyntaxTree) : Prop where
  complete : ∀ d ∈ tree.definitions, d.Complete
  ordered : (tree.definitions.map (fun d => d.text.offset)).Pairwise (· < ·)
  atBoundaries : ∀ d ∈ tree.definitions, IsBoundary text d.text.offset

/-- A parser that reports an error for every text whose tree is not well-formed. -/
def Faithful (parser : String → SyntaxTree) : Prop :=
  ∀ source, (parser source).errors = [] → (parser source).WellFormed source.toList

namespace OperationKind

theorem ofKeyword?_text (kind : OperationKind) : ofKeyword? kind.text = some kind := by
  cases kind <;> rfl

theorem exists_eq_text {keyword : Name}
    (h : keyword = "query" ∨ keyword = "mutation" ∨ keyword = "subscription") :
    ∃ kind : OperationKind, keyword = kind.text := by
  rcases h with rfl | rfl | rfl
  · exact ⟨.query, rfl⟩
  · exact ⟨.mutation, rfl⟩
  · exact ⟨.subscription, rfl⟩

end OperationKind

/-! ## The text of a node -/

namespace NodeText

/-- The pieces of a text that are not ignored. -/
def significant (text : NodeText) : List (Piece Lexeme) :=
  text.pieces.filter (fun piece => piece.kind.isSignificant)

theorem head?_significant (text : NodeText) : text.significant.head? = text.first? :=
  List.head?_filter

theorem offset_of_first? {text : NodeText} {piece : Piece Lexeme} (h : text.first? = some piece) :
    text.offset = piece.offset := by
  rw [offset, h]

/-- A text starts with tokens of some kinds, and has more after them.  Ignored text does not
count. -/
def StartsWith (text : NodeText) (words : List TokenKind) (more : List (Piece Lexeme)) : Prop :=
  ∃ head, text.significant = head ++ more ∧ head.map Piece.kind = words.map Lexeme.token

/-- A text is written by a rule: it starts with tokens of some kinds, and among the others stand the
texts of the nodes below, one after the other. -/
def Opens (text : NodeText) (words : List TokenKind) (below : List NodeText) : Prop :=
  ∃ more, text.StartsWith words more ∧ (below.flatMap significant).Sublist more

/-- A text that starts with tokens is placed at the first of them. -/
theorem StartsWith.first? {text : NodeText} {word : TokenKind} {words : List TokenKind}
    {more : List (Piece Lexeme)} (h : text.StartsWith (word :: words) more) :
    ∃ piece, text.first? = some piece ∧ piece.kind = .token word := by
  obtain ⟨head, htext, hhead⟩ := h
  obtain ⟨piece, rest, rfl, hword, -⟩ := List.map_eq_cons_iff.1 hhead
  refine ⟨piece, ?_, hword⟩
  rw [← head?_significant, htext]
  rfl

end NodeText

/-! ## What the grammar says of nodes -/

/-- An alias with its colon, if there is one. -/
def aliasWords : Option Name → List TokenKind
  | none => []
  | some a => [.name a, .mark ':']

/-- The tokens that a field starts with: its alias, if it has one, and its name. -/
def fieldWords (alias? : Option Name) (name : Name) : List TokenKind :=
  aliasWords alias? ++ [.name name]

/-- The tokens that an inline fragment starts with: points, and its type condition if it has one. -/
def inlineFragmentWords : Option Name → List TokenKind
  | none => [.ellipsis]
  | some condition => [.ellipsis, .name "on", .name condition]

theorem fieldWords_ne_nil (alias? : Option Name) (name : Name) : fieldWords alias? name ≠ [] :=
  List.append_ne_nil_of_right_ne_nil _ (List.cons_ne_nil _ _)

theorem inlineFragmentWords_ne_nil (condition? : Option Name) :
    inlineFragmentWords condition? ≠ [] := by
  cases condition? <;> exact List.cons_ne_nil _ _

def SelectionNode.text : SelectionNode → NodeText
  | .field node => node.text
  | .spread node => node.text
  | .inlineFragment node => node.text

mutual

/-- A selection is written by the rule of its kind and lacks nothing, and so are the selections below
it. -/
inductive SelectionNode.Grammatical : SelectionNode → Prop
  | field {text : NodeText} {alias? : Option Name} {name : Name} {arguments : List ArgumentNode}
      {directives : List DirectiveNode} {selections? : Option (List SelectionNode)}
      (h : text.Opens (fieldWords alias? name) ((selections?.getD []).map SelectionNode.text)) :
      SelectionNode.AllGrammatical (selections?.getD []) →
      Grammatical (.field ⟨text, alias?.map some, some name, arguments, directives, selections?⟩)
  | spread {text : NodeText} {name : Name} {directives : List DirectiveNode}
      (h : text.Opens [.ellipsis, .name name] []) : Grammatical (.spread ⟨text, some name, directives⟩)
  | inlineFragment {text : NodeText} {condition? : Option Name} {directives : List DirectiveNode}
      {selections : List SelectionNode}
      (h : text.Opens (inlineFragmentWords condition?) (selections.map SelectionNode.text)) :
      SelectionNode.AllGrammatical selections →
      Grammatical (.inlineFragment ⟨text, condition?.map some, directives, some selections⟩)

inductive SelectionNode.AllGrammatical : List SelectionNode → Prop
  | nil : AllGrammatical []
  | cons {node : SelectionNode} {rest : List SelectionNode} :
      SelectionNode.Grammatical node → AllGrammatical rest → AllGrammatical (node :: rest)

end

/-- A variable definition starts with a dollar sign, the name and a colon, and its type and default
lack nothing. -/
structure VariableDefinitionNode.Grammatical (node : VariableDefinitionNode) : Prop where
  opens : ∃ name, node.name? = some name ∧ node.text.Opens [.mark '$', .name name, .mark ':'] []
  type : (node.type?.bind TypeNode.convert).isSome
  default : (convertOptional (· >>= ValueNode.convert) node.default?).isSome

/-- An operation starts with its keyword and name, or is a selection set only. -/
inductive OperationNode.Grammatical : OperationNode → Prop
  | shorthand {text : NodeText} {selections : List SelectionNode}
      (h : text.Opens [.mark '\x7b'] (selections.map SelectionNode.text))
      (hselections : SelectionNode.AllGrammatical selections) :
      Grammatical ⟨text, none, none, [], [], some selections⟩
  | full {text : NodeText} {kind : OperationKind} {name? : Option Name}
      {definitions : List VariableDefinitionNode} {directives : List DirectiveNode}
      {selections : List SelectionNode}
      (h : text.Opens (.name kind.text :: name?.toList.map .name)
        (definitions.map VariableDefinitionNode.text ++ selections.map SelectionNode.text))
      (hdefinitions : ∀ d ∈ definitions, d.Grammatical)
      (hselections : SelectionNode.AllGrammatical selections) :
      Grammatical ⟨text, some kind.text, name?, definitions, directives, some selections⟩

/-- The first token of a fragment: its keyword, or a description in the place of one. -/
def TokenKind.StartsFragment (word : TokenKind) : Prop :=
  word = .name "fragment" ∨ ∃ description, word = .string description

/-- A fragment starts with its first word, its name and its type condition. -/
inductive FragmentNode.Grammatical : FragmentNode → Prop
  | intro {text : NodeText} {first : TokenKind} {name condition : Name}
      {directives : List DirectiveNode} {selections : List SelectionNode}
      (hfirst : first.StartsFragment)
      (h : text.Opens [first, .name name, .name "on", .name condition]
        (selections.map SelectionNode.text))
      (hselections : SelectionNode.AllGrammatical selections) :
      Grammatical ⟨text, some name, some (some condition), directives, some selections⟩

/-- Of a definition of the type system it is only asked that it is not empty. -/
def DefinitionNode.Grammatical : DefinitionNode → Prop
  | .operation node => node.Grammatical
  | .fragment node => node.Grammatical
  | .typeSystem _ text => text.significant ≠ []

namespace SyntaxTree

def Grammatical (tree : SyntaxTree) : Prop :=
  ∀ d ∈ tree.definitions, d.Grammatical

/-- A tree keeps the whole text: pieces cover it, and what is not ignored stands in the definitions, one
after the other. -/
def Lossless (source : String) (tree : SyntaxTree) : Prop :=
  ∃ pieces, Covers 0 source.toList pieces ∧
    pieces.filter (fun piece => piece.kind.isSignificant) =
      tree.definitions.flatMap (fun d => d.text.significant)

end SyntaxTree

theorem OperationNode.Grammatical.complete {node : OperationNode} (h : node.Grammatical) :
    node.Complete := by
  cases h with
  | shorthand h hselections => exact ⟨rfl, rfl⟩
  | @full text kind name? definitions directives selections h hdefinitions hselections =>
    refine ⟨?_, rfl⟩
    show (OperationKind.ofKeyword? kind.text).isSome
    rw [kind.ofKeyword?_text]
    rfl

theorem DefinitionNode.Grammatical.complete {d : DefinitionNode} (h : d.Grammatical) :
    d.Complete := by
  cases d with
  | operation node => exact OperationNode.Grammatical.complete h
  | fragment node =>
    cases h with
    | intro hfirst h hselections => exact ⟨rfl, rfl, rfl⟩
  | typeSystem kind text => trivial

/-! ## All nodes of a tree -/

mutual

/-- The texts of a selection and of all selections below it, in the order of the tree. -/
def SelectionNode.texts : SelectionNode → List NodeText
  | .field ⟨text, _, _, _, _, some selections⟩ => text :: SelectionNode.textsOfAll selections
  | .field ⟨text, _, _, _, _, none⟩ => [text]
  | .spread node => [node.text]
  | .inlineFragment ⟨text, _, _, some selections⟩ => text :: SelectionNode.textsOfAll selections
  | .inlineFragment ⟨text, _, _, none⟩ => [text]

def SelectionNode.textsOfAll : List SelectionNode → List NodeText
  | [] => []
  | node :: rest => node.texts ++ SelectionNode.textsOfAll rest

end

/-- The texts of an operation, its variables and its selections. -/
def OperationNode.texts (node : OperationNode) : List NodeText :=
  node.text :: (node.variableDefinitions.map VariableDefinitionNode.text ++
    SelectionNode.textsOfAll (node.selections?.getD []))

/-- The texts of a fragment and its selections. -/
def FragmentNode.texts (node : FragmentNode) : List NodeText :=
  node.text :: SelectionNode.textsOfAll (node.selections?.getD [])

def DefinitionNode.texts : DefinitionNode → List NodeText
  | .operation node => node.texts
  | .fragment node => node.texts
  | .typeSystem _ text => [text]

/-- The texts of all nodes of a tree, in the order of the tree. -/
def SyntaxTree.texts (tree : SyntaxTree) : List NodeText :=
  tree.definitions.flatMap DefinitionNode.texts

/-- Every one of some texts has a first token, and these stand in a list, one after the other. -/
def StartIn (pieces : List (Piece Lexeme)) (texts : List NodeText) : Prop :=
  ∃ firsts : List (Piece Lexeme), firsts.Sublist pieces ∧
    texts.map NodeText.first? = firsts.map some

namespace StartIn

variable {pieces more : List (Piece Lexeme)} {texts others : List NodeText}

theorem nil (pieces : List (Piece Lexeme)) : StartIn pieces [] :=
  ⟨[], List.nil_sublist pieces, rfl⟩

theorem append (h : StartIn pieces texts) (hmore : StartIn more others) :
    StartIn (pieces ++ more) (texts ++ others) := by
  obtain ⟨firsts, hfirsts, htexts⟩ := h
  obtain ⟨firsts', hfirsts', hothers⟩ := hmore
  exact ⟨firsts ++ firsts', hfirsts.append hfirsts', by
    rw [List.map_append, List.map_append, htexts, hothers]⟩

theorem mono (h : StartIn pieces texts) (hmore : pieces.Sublist more) : StartIn more texts := by
  obtain ⟨firsts, hfirsts, htexts⟩ := h
  exact ⟨firsts, hfirsts.trans hmore, htexts⟩

theorem flatMap {N : Type} {nodes : List N} {pieces : N → List (Piece Lexeme)}
    {texts : N → List NodeText} (h : ∀ n ∈ nodes, StartIn (pieces n) (texts n)) :
    StartIn (nodes.flatMap pieces) (nodes.flatMap texts) := by
  induction nodes with
  | nil => exact nil _
  | cons n rest ih =>
    rw [List.forall_mem_cons] at h
    exact h.1.append (ih h.2)

/-- A node starts before the nodes below it. -/
theorem node {text : NodeText} {words : List TokenKind} {below : List NodeText}
    (h : text.Opens words below) (hwords : words ≠ [])
    (hbelow : StartIn (below.flatMap NodeText.significant) texts) :
    StartIn text.significant (text :: texts) := by
  obtain ⟨word, words, rfl⟩ := List.exists_cons_of_ne_nil hwords
  obtain ⟨more, ⟨head, htext, hhead⟩, hmore⟩ := h
  obtain ⟨piece, rest, rfl, -, -⟩ := List.map_eq_cons_iff.1 hhead
  obtain ⟨firsts, hfirsts, htexts⟩ := hbelow
  have hfirst : text.first? = some piece := by
    rw [← NodeText.head?_significant, htext]
    rfl
  refine ⟨piece :: firsts, ?_, by rw [List.map_cons, List.map_cons, hfirst, htexts]⟩
  rw [htext]
  exact ((hfirsts.trans hmore).trans (List.sublist_append_right rest more)).cons_cons piece

end StartIn

theorem SelectionNode.texts_field (node : FieldNode SelectionNode) :
    (SelectionNode.field node).texts =
      node.text :: SelectionNode.textsOfAll (node.selections?.getD []) := by
  obtain ⟨text, alias?, name?, arguments, directives, _ | selections⟩ := node <;> rfl

mutual

theorem SelectionNode.Grammatical.startIn : ∀ {node : SelectionNode}, node.Grammatical →
    StartIn node.text.significant node.texts
  | _, .field h hselections => by
      rw [texts_field]
      exact .node h (fieldWords_ne_nil _ _) hselections.startIn
  | _, .spread h => .node h (List.cons_ne_nil _ _) (.nil _)
  | _, .inlineFragment h hselections =>
      .node h (inlineFragmentWords_ne_nil _) hselections.startIn

theorem SelectionNode.AllGrammatical.startIn : ∀ {nodes : List SelectionNode}, AllGrammatical nodes →
    StartIn ((nodes.map SelectionNode.text).flatMap NodeText.significant) (textsOfAll nodes)
  | _, .nil => .nil _
  | _, .cons hnode hrest => hnode.startIn.append hrest.startIn

end

theorem VariableDefinitionNode.Grammatical.startIn {node : VariableDefinitionNode}
    (h : node.Grammatical) : StartIn node.text.significant [node.text] := by
  obtain ⟨name, -, hopens⟩ := h.opens
  exact .node hopens (List.cons_ne_nil _ _) (.nil _)

theorem OperationNode.Grammatical.startIn {node : OperationNode} (h : node.Grammatical) :
    StartIn node.text.significant node.texts := by
  cases h with
  | shorthand h hselections => exact .node h (List.cons_ne_nil _ _) hselections.startIn
  | full h hdefinitions hselections =>
    refine .node h (List.cons_ne_nil _ _) ?_
    have hvariables := StartIn.flatMap fun d hd => (hdefinitions d hd).startIn
    rw [List.flatMap_append, List.flatMap_map]
    rw [← List.map_eq_flatMap] at hvariables
    exact hvariables.append hselections.startIn

theorem DefinitionNode.Grammatical.startIn {d : DefinitionNode} (h : d.Grammatical) :
    StartIn d.text.significant d.texts := by
  cases d with
  | operation node => exact OperationNode.Grammatical.startIn h
  | fragment node =>
    cases h with
    | intro hfirst h hselections => exact .node h (List.cons_ne_nil _ _) hselections.startIn
  | typeSystem kind text =>
    obtain ⟨piece, more, htext⟩ := List.exists_cons_of_ne_nil h
    have hfirst : text.first? = some piece := by
      rw [← NodeText.head?_significant, htext]
      rfl
    refine ⟨[piece], ?_, congrArg ([·]) hfirst⟩
    rw [show (typeSystem kind text).text.significant = piece :: more from htext]
    exact (List.nil_sublist more).cons_cons piece

/-! ## The order of the text -/

namespace StartIn

variable {text : List Char} {pieces : List (Piece Lexeme)} {texts : List NodeText}

theorem offsets {texts : List NodeText} {firsts : List (Piece Lexeme)}
    (h : texts.map NodeText.first? = firsts.map some) :
    texts.map NodeText.offset = firsts.map Piece.offset := by
  induction texts generalizing firsts with
  | nil =>
    rw [List.map_nil, eq_comm, List.map_eq_nil_iff] at h
    rw [h, List.map_nil, List.map_nil]
  | cons text rest ih =>
    obtain ⟨piece, more, rfl, hpiece, hmore⟩ := List.map_eq_cons_iff.1 h.symm
    rw [List.map_cons, List.map_cons, ih hmore.symm, NodeText.offset_of_first? hpiece.symm]

/-- Nodes that start at pieces of a text, one after the other, are placed in the order of the text. -/
theorem ordered (h : StartIn pieces texts) (hcovers : Covers 0 text pieces) :
    (texts.map NodeText.offset).Pairwise (· < ·) := by
  obtain ⟨firsts, hfirsts, htexts⟩ := h
  rw [offsets htexts]
  exact hcovers.ordered.sublist (hfirsts.map Piece.offset)

/-- They are placed where these pieces stand. -/
theorem stands (h : StartIn pieces texts) (hcovers : Covers 0 text pieces) :
    ∀ t ∈ texts, ∃ piece, t.first? = some piece ∧ t.offset = piece.offset ∧ piece.StandsIn text := by
  intro t ht
  obtain ⟨firsts, hfirsts, htexts⟩ := h
  obtain ⟨piece, hpiece, hfirst⟩ := List.mem_map.1 (htexts ▸ List.mem_map_of_mem ht)
  exact ⟨piece, hfirst.symm, NodeText.offset_of_first? hfirst.symm,
    hcovers.stands piece (hfirsts.subset hpiece)⟩

end StartIn

/-! ## Trees of a text -/

namespace SyntaxTree

variable {source : String} {tree : SyntaxTree}

/-- The nodes of a tree start at pieces that cover the text, one after the other. -/
theorem Lossless.startIn (h : tree.Lossless source) (hgrammar : tree.Grammatical) :
    ∃ pieces, Covers 0 source.toList pieces ∧ StartIn pieces tree.texts := by
  obtain ⟨pieces, hcovers, hpieces⟩ := h
  have hdefinitions := StartIn.flatMap fun d hd => (hgrammar d hd).startIn
  rw [← hpieces] at hdefinitions
  exact ⟨pieces, hcovers, hdefinitions.mono List.filter_sublist⟩

theorem texts_sublist (tree : SyntaxTree) :
    (tree.definitions.map DefinitionNode.text).Sublist tree.texts := by
  rw [List.map_eq_flatMap]
  refine List.Sublist.flatMap_right _ fun d _ => ?_
  cases d with
  | operation node => exact (List.nil_sublist _).cons_cons node.text
  | fragment node => exact (List.nil_sublist _).cons_cons node.text
  | typeSystem kind text => exact List.Sublist.refl [text]

theorem Lossless.wellFormed (h : tree.Lossless source) (hgrammar : tree.Grammatical) :
    tree.WellFormed source.toList := by
  obtain ⟨pieces, hcovers, hstart⟩ := h.startIn hgrammar
  refine ⟨fun d hd => (hgrammar d hd).complete, ?_, fun d hd => ?_⟩
  · have hsublist := tree.texts_sublist.map NodeText.offset
    rw [List.map_map] at hsublist
    exact (hstart.ordered hcovers).sublist hsublist
  · have htext := tree.texts_sublist.subset (List.mem_map_of_mem hd)
    obtain ⟨piece, -, hoffset, read, left, hread, hlength, -⟩ := hstart.stands hcovers _ htext
    exact ⟨read, left, hread, hlength.trans hoffset.symm⟩

end SyntaxTree

end GraphQLEngine
