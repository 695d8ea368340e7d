/-
Nodes stand in the order of the text.

The nodes of a document are listed from each to those below it and then to the
next, and so are the texts in a tree.  The two lists match: what a node of a
grammatical tree becomes says with which words the node starts, and is located
at the first of them (`DocumentNode.Marks`).  In the tree of a whole text these
words stand one after the other.  So every node of the document is located
where its first word is found, and the locations come in the order of the text.
-/
import Mathlib.Data.List.Flatten
import Mathlib.Data.List.Forall2
import GraphQLEngine.Proofs.Parsing

namespace GraphQLEngine

/-! ## The nodes of a document -/

/-- A node of a document that has a location. -/
inductive DocumentNode where
  | operation (operation : Operation)
  | variableDefinition (definition : VariableDefinition)
  | selection (selection : Selection)
  | fragment (fragment : Fragment)

namespace DocumentNode

def location : DocumentNode → Option Location
  | .operation o => o.location
  | .variableDefinition d => d.location
  | .selection (.field f) => f.location
  | .selection (.spread s) => s.location
  | .selection (.inlineFragment i) => i.location
  | .fragment f => f.location

/-- The words that a node is written with, from its first one on. -/
inductive StartsWith : DocumentNode → List TokenKind → Prop
  | shorthand {selections : List Selection} {location : Option Location} :
      StartsWith (.operation ⟨.query, none, [], [], selections, location⟩) [.mark '\x7b']
  | operation (o : Operation) :
      StartsWith (.operation o) (.name o.kind.text :: o.name?.toList.map .name)
  | variableDefinition (d : VariableDefinition) :
      StartsWith (.variableDefinition d) [.mark '$', .name d.name, .mark ':']
  | field (f : Field) : StartsWith (.selection (.field f)) (fieldWords f.alias? f.name)
  | spread (s : FragmentSpread) : StartsWith (.selection (.spread s)) [.ellipsis, .name s.fragment]
  | inlineFragment (i : InlineFragment Selection) :
      StartsWith (.selection (.inlineFragment i)) (inlineFragmentWords i.typeCondition)
  | fragment {f : Fragment} {first : TokenKind} (h : first.StartsFragment) :
      StartsWith (.fragment f) [first, .name f.name, .name "on", .name f.typeCondition]

end DocumentNode

mutual

/-- A selection and all selections below it, in the order of the document. -/
def Selection.nodes : Selection → List DocumentNode
  | .field ⟨alias?, name, arguments, directives, selections, location⟩ =>
    .selection (.field ⟨alias?, name, arguments, directives, selections, location⟩) ::
      Selection.nodesOfAll selections
  | .spread s => [.selection (.spread s)]
  | .inlineFragment ⟨typeCondition, directives, selections, location⟩ =>
    .selection (.inlineFragment ⟨typeCondition, directives, selections, location⟩) ::
      Selection.nodesOfAll selections

def Selection.nodesOfAll : List Selection → List DocumentNode
  | [] => []
  | s :: rest => s.nodes ++ Selection.nodesOfAll rest

end

/-- An operation, its variables and its selections. -/
def Operation.nodes (o : Operation) : List DocumentNode :=
  .operation o :: (o.variableDefinitions.map .variableDefinition ++
    Selection.nodesOfAll o.selections)

/-- A fragment and its selections. -/
def Fragment.nodes (f : Fragment) : List DocumentNode :=
  .fragment f :: Selection.nodesOfAll f.selections

/-- An operation or a fragment. -/
inductive ExecutableDefinition where
  | operation (operation : Operation)
  | fragment (fragment : Fragment)

namespace ExecutableDefinition

def operation? : ExecutableDefinition → Option Operation
  | .operation o => some o
  | .fragment _ => none

def fragment? : ExecutableDefinition → Option Fragment
  | .operation _ => none
  | .fragment f => some f

def nodes : ExecutableDefinition → List DocumentNode
  | .operation o => o.nodes
  | .fragment f => f.nodes

end ExecutableDefinition

/-! ## What becomes of a node -/

/-- A node of a document is located at a text, which starts with its words. -/
def DocumentNode.Marks (index : LineIndex) (text : NodeText) (node : DocumentNode) : Prop :=
  node.location = some (text.location index) ∧
    ∃ word words more, node.StartsWith (word :: words) ∧ text.StartsWith (word :: words) more

/-- A node is converted, and what it becomes has nodes for all texts of it, in their order. -/
def Matches {T : Type} (index : LineIndex) (converted? : Option T) (texts : List NodeText)
    (nodes : T → List DocumentNode) : Prop :=
  ∃ t, converted? = some t ∧ List.Forall₂ (DocumentNode.Marks index) texts (nodes t)

section

variable {index : LineIndex}

theorem DocumentNode.Marks.intro {text : NodeText} {node : DocumentNode} {words : List TokenKind}
    {below : List NodeText} (hlocation : node.location = some (text.location index))
    (hnode : node.StartsWith words) (hne : words ≠ []) (htext : text.Opens words below) :
    node.Marks index text := by
  obtain ⟨word, words, rfl⟩ := List.exists_cons_of_ne_nil hne
  obtain ⟨more, hmore, -⟩ := htext
  exact ⟨hlocation, word, words, more, hnode, hmore⟩

theorem DocumentNode.map_location {texts : List NodeText} {nodes : List DocumentNode}
    (h : List.Forall₂ (Marks index) texts nodes) :
    nodes.map location = texts.map (fun t => some (t.location index)) := by
  induction h with
  | nil => rfl
  | cons hnode _ ih => rw [List.map_cons, List.map_cons, hnode.1, ih]

/-- Nodes one after the other that are all converted. -/
theorem Matches.collect {N T : Type} {convert : N → Option T} {texts : N → List NodeText}
    {nodes : T → List DocumentNode} {ns : List N}
    (h : ∀ n ∈ ns, Matches index (convert n) (texts n) nodes) :
    List.Forall₂ (DocumentNode.Marks index) (ns.flatMap texts)
      ((collect convert ns).flatMap nodes) := by
  induction ns with
  | nil => exact .nil
  | cons n rest ih =>
    rw [List.forall_mem_cons] at h
    obtain ⟨t, hconvert, hnodes⟩ := h.1
    rw [GraphQLEngine.collect, List.filterMap_cons_some hconvert]
    exact List.rel_append hnodes (ih h.2)

theorem Selection.nodes_field (f : Field) :
    (Selection.field f).nodes = .selection (.field f) :: Selection.nodesOfAll f.selections := by
  cases f
  rfl

theorem Selection.nodes_inlineFragment (i : InlineFragment Selection) :
    (Selection.inlineFragment i).nodes =
      .selection (.inlineFragment i) :: Selection.nodesOfAll i.selections := by
  cases i
  rfl

theorem SelectionNode.convert_field (text : NodeText) (alias? : Option Name) (name : Name)
    (arguments : List ArgumentNode) (directives : List DirectiveNode)
    (selections? : Option (List SelectionNode)) :
    (SelectionNode.field ⟨text, alias?.map some, some name, arguments, directives, selections?⟩).convert
      index = some (.field ⟨alias?, name, collect ArgumentNode.convert arguments,
        collect DirectiveNode.convert directives,
        SelectionNode.convertAll index (selections?.getD []), some (text.location index)⟩) := by
  cases alias? <;> cases selections? <;> rfl

theorem SelectionNode.convert_inlineFragment (text : NodeText) (condition? : Option Name)
    (directives : List DirectiveNode) (selections : List SelectionNode) :
    (SelectionNode.inlineFragment ⟨text, condition?.map some, directives, some selections⟩).convert
      index = some (.inlineFragment ⟨condition?, collect DirectiveNode.convert directives,
        SelectionNode.convertAll index selections, some (text.location index)⟩) := by
  cases condition? <;> rfl

mutual

theorem SelectionNode.Grammatical.matches : ∀ {node : SelectionNode}, node.Grammatical →
    Matches index (node.convert index) node.texts Selection.nodes
  | _, .field h hselections => by
      refine ⟨_, convert_field .., ?_⟩
      rw [texts_field, Selection.nodes_field]
      exact .cons (.intro rfl (.field _) (fieldWords_ne_nil _ _) h) hselections.matches
  | _, .spread h => ⟨_, rfl, .cons (.intro rfl (.spread _) (List.cons_ne_nil _ _) h) .nil⟩
  | _, .inlineFragment h hselections => by
      refine ⟨_, convert_inlineFragment .., ?_⟩
      rw [Selection.nodes_inlineFragment]
      exact .cons (.intro rfl (.inlineFragment _) (inlineFragmentWords_ne_nil _) h)
        hselections.matches

theorem SelectionNode.AllGrammatical.matches : ∀ {nodes : List SelectionNode}, AllGrammatical nodes →
    List.Forall₂ (DocumentNode.Marks index) (textsOfAll nodes)
      (Selection.nodesOfAll (convertAll index nodes))
  | _, .nil => .nil
  | _, .cons hnode hrest => by
      obtain ⟨s, hconvert, hnodes⟩ := hnode.matches
      rw [textsOfAll, convertAll, hconvert]
      exact List.rel_append hnodes hrest.matches

end

theorem VariableDefinitionNode.Grammatical.matches {node : VariableDefinitionNode}
    (h : node.Grammatical) : Matches index (node.convert index) [node.text]
      (fun d => [.variableDefinition d]) := by
  obtain ⟨⟨name, hname, hopens⟩, hsome, hdefault⟩ := h
  obtain ⟨type, hbind⟩ := Option.isSome_iff_exists.1 hsome
  obtain ⟨typeNode, hnode, htype⟩ := Option.bind_eq_some_iff.1 hbind
  obtain ⟨default?, hdefault⟩ := Option.isSome_iff_exists.1 hdefault
  have hconvert : node.convert index =
      some ⟨name, type, default?, some (node.text.location index)⟩ := by
    rw [convert, hdefault, hname, hnode]
    simp only [htype, Option.bind_eq_bind, Option.bind_some, Option.pure_def]
  exact ⟨_, hconvert, .cons (.intro rfl (.variableDefinition _) (List.cons_ne_nil _ _) hopens) .nil⟩

theorem OperationNode.Grammatical.matches {node : OperationNode} (h : node.Grammatical) :
    Matches index (node.convert index) node.texts Operation.nodes := by
  cases h with
  | shorthand h hselections =>
    exact ⟨_, rfl, .cons (.intro rfl .shorthand (List.cons_ne_nil _ _) h) hselections.matches⟩
  | @full text kind name? definitions directives selections h hdefinitions hselections =>
    have hconvert : OperationNode.convert index
        ⟨text, some kind.text, name?, definitions, directives, some selections⟩ =
        some ⟨kind, name?, collect (VariableDefinitionNode.convert index) definitions,
          collect DirectiveNode.convert directives, SelectionNode.convertAll index selections,
          some (text.location index)⟩ := by
      simp [OperationNode.convert, OperationNode.kind?, OperationKind.ofKeyword?_text]
    refine ⟨_, hconvert, .cons (.intro rfl (.operation _) (List.cons_ne_nil _ _) h) ?_⟩
    have hvariables : List.Forall₂ (DocumentNode.Marks index)
        (definitions.map VariableDefinitionNode.text)
        ((collect (VariableDefinitionNode.convert index) definitions).map .variableDefinition) := by
      rw [List.map_eq_flatMap, List.map_eq_flatMap]
      exact Matches.collect fun d hd => (hdefinitions d hd).matches
    exact List.rel_append hvariables hselections.matches

end

/-! ## The definitions of a document -/

/-- What a document holds for a definition of a text, if it holds anything. -/
def DefinitionNode.convert (index : LineIndex) : DefinitionNode → Option ExecutableDefinition
  | .operation node => (node.convert index).map .operation
  | .fragment node => (node.convert index).map .fragment
  | .typeSystem _ _ => none

theorem OperationNode.filterMap_convert {index : LineIndex} {nodes : List OperationNode}
    {operations : List Operation} (h : List.Forall₂ (OperationNode.Becomes index) nodes operations) :
    nodes.filterMap (OperationNode.convert index) = operations := by
  induction h with
  | nil => rfl
  | cons hnode _ ih => rw [List.filterMap_cons_some hnode.converted, ih]

theorem FragmentNode.filterMap_convert {index : LineIndex} {nodes : List FragmentNode}
    {fragments : OrderedMap Fragment}
    (h : List.Forall₂ (FragmentNode.Becomes index) nodes fragments) :
    (nodes.filterMap (FragmentNode.convert index)).map (fun f => (f.name, f)) = fragments := by
  induction h with
  | nil => rfl
  | @cons node entry nodes fragments hnode _ ih =>
    have hkey : entry.2.name = entry.1 := Option.some.inj (hnode.name.symm.trans hnode.key)
    rw [List.filterMap_cons_some hnode.converted, List.map_cons, ih, hkey]

namespace DefinitionNode

variable {index : LineIndex}

theorem operation?_convert (d : DefinitionNode) :
    (d.convert index).bind ExecutableDefinition.operation? =
      d.operation?.bind (OperationNode.convert index) := by
  cases d with
  | operation node =>
    show ((node.convert index).map _).bind _ = node.convert index
    cases node.convert index <;> rfl
  | fragment node =>
    show ((node.convert index).map _).bind _ = none
    cases node.convert index <;> rfl
  | typeSystem kind text => rfl

theorem fragment?_convert (d : DefinitionNode) :
    (d.convert index).bind ExecutableDefinition.fragment? =
      d.fragment?.bind (FragmentNode.convert index) := by
  cases d with
  | operation node =>
    show ((node.convert index).map _).bind _ = none
    cases node.convert index <;> rfl
  | fragment node =>
    show ((node.convert index).map _).bind _ = node.convert index
    cases node.convert index <;> rfl
  | typeSystem kind text => rfl

end DefinitionNode

/-- A document holds definitions, and nothing else. -/
structure Document.Holds (document : Document) (definitions : List ExecutableDefinition) : Prop where
  operations : document.operations = definitions.filterMap ExecutableDefinition.operation?
  fragments : document.fragments =
    (definitions.filterMap ExecutableDefinition.fragment?).map (fun f => (f.name, f))

/-- The definitions that an accepted text becomes are those of the document. -/
theorem KeepsOrReports.holds {index : LineIndex} {ds : List DefinitionNode} {document : Document}
    (h : KeepsOrReports index ds (.ok document)) :
    document.Holds (collect (DefinitionNode.convert index) ds) := by
  have hoperations := OperationNode.filterMap_convert (h.operations document rfl)
  have hfragments := FragmentNode.filterMap_convert (h.fragments document rfl)
  constructor
  · simp only [collect, List.filterMap_filterMap, DefinitionNode.operation?_convert]
    rw [← List.filterMap_filterMap, hoperations]
  · simp only [collect, List.filterMap_filterMap, DefinitionNode.fragment?_convert]
    rw [← List.filterMap_filterMap, hfragments]

/-- A definition for an executable document is kept, with all of its nodes. -/
theorem DefinitionNode.Grammatical.matches {index : LineIndex} {d : DefinitionNode}
    (h : d.Grammatical) (hexecutable : d.IsExecutable) :
    Matches index (d.convert index) d.texts ExecutableDefinition.nodes := by
  cases d with
  | operation node =>
    obtain ⟨o, hconvert, hnodes⟩ : Matches index (node.convert index) node.texts Operation.nodes :=
      OperationNode.Grammatical.matches h
    exact ⟨.operation o, by rw [DefinitionNode.convert, hconvert]; rfl, hnodes⟩
  | fragment node =>
    cases h with
    | intro hfirst h hselections =>
      exact ⟨_, rfl, .cons (.intro rfl (.fragment hfirst) (List.cons_ne_nil _ _) h)
        hselections.matches⟩
  | typeSystem kind text => exact absurd hexecutable id

/-! ## The order of the text -/

/-- All locations are known, each is before the next, and no two are the same. -/
def InTextOrder (locations : List (Option Location)) : Prop :=
  ∃ places : List Location, locations = places.map some ∧
    places.Pairwise (fun a b => a.before b) ∧ places.Nodup

/-- A node of a document stands where its first word does: the first piece of its text that is not
ignored is a token, at which the words of the node start.  There the source text goes on with this
token, and the location is counted up to there. -/
def DocumentNode.StandsAt (source : String) (text : NodeText) (node : DocumentNode) : Prop :=
  ∃ piece word words more read left, text.first? = some piece ∧ piece.kind = .token word ∧
    node.StartsWith (word :: words) ∧ text.StartsWith (word :: words) more ∧
    source.toList = read ++ left ∧ byteLength read = piece.offset ∧ word.word <+: left ∧
    node.location = some (Location.endOf read)

/-- A document holds definitions whose nodes match the texts of a tree, one by one and in their order.
Each node stands at its text, and the nodes are located in the order of the source text. -/
structure Document.StandsIn (document : Document) (source : String) (tree : SyntaxTree)
    (definitions : List ExecutableDefinition) : Prop where
  holds : document.Holds definitions
  stand : List.Forall₂ (DocumentNode.StandsAt source) tree.texts
    (definitions.flatMap ExecutableDefinition.nodes)
  ordered : InTextOrder
    ((definitions.flatMap ExecutableDefinition.nodes).map DocumentNode.location)

/-- The nodes of a tree that keeps the text are placed in the order of the text. -/
theorem SyntaxTree.Lossless.inTextOrder {source : String} {tree : SyntaxTree}
    (h : tree.Lossless source) (hgrammar : tree.Grammatical) :
    InTextOrder (tree.texts.map (fun t => some (t.location (.ofChars source.toList)))) := by
  obtain ⟨pieces, hcovers, hstart⟩ := h.startIn hgrammar
  have hboundary : ∀ t ∈ tree.texts, IsBoundary source.toList t.offset := by
    intro t ht
    obtain ⟨piece, -, hoffset, read, left, htext, hread, -⟩ := hstart.stands hcovers t ht
    exact ⟨read, left, htext, hread.trans hoffset.symm⟩
  have hbefore : (tree.texts.map (NodeText.location (.ofChars source.toList))).Pairwise
      (fun a b => a.before b) := by
    rw [List.pairwise_map]
    refine (List.pairwise_map.1 (hstart.ordered hcovers)).imp_of_mem fun ha hb hlt => ?_
    exact LineIndex.before_locate (hboundary _ ha) (hboundary _ hb) hlt
  refine ⟨_, List.map_map.symm, hbefore, hbefore.imp ?_⟩
  rintro a b hab rfl
  exact absurd hab (Bool.eq_false_iff.1 (Location.before_asymm hab))

/-- A node located at a text of a tree that keeps the source text stands there. -/
theorem DocumentNode.Marks.standsAt {source : String} {pieces : List (Piece Lexeme)}
    {texts : List NodeText} {text : NodeText} {node : DocumentNode}
    (h : node.Marks (.ofChars source.toList) text) (hcovers : Covers 0 source.toList pieces)
    (hstart : StartIn pieces texts) (htext : text ∈ texts) : node.StandsAt source text := by
  obtain ⟨hlocation, word, words, more, hnode, hstarts⟩ := h
  obtain ⟨piece, hfirst, hword⟩ := hstarts.first?
  obtain ⟨piece', hfirst', hoffset, read, left, hsource, hread, hleft⟩ :=
    hstart.stands hcovers text htext
  obtain rfl := Option.some.inj (hfirst.symm.trans hfirst')
  refine ⟨piece, word, words, more, read, left, hfirst, hword, hnode, hstarts, hsource, hread,
    hleft word hword, ?_⟩
  rw [hlocation, NodeText.location, hoffset, ← hread, LineIndex.locate_eq_endOf hsource]

/-! ## Accepted texts -/

theorem SyntaxTree.errors_of_parseWith {parser : String → SyntaxTree} {source : String}
    {document : Document} (h : Document.parseWith parser source = .ok document) :
    (parser source).errors = [] := by
  by_contra hne
  have hmalformed : ReportsMalformed (.ofChars source.toList) (parser source).errors
      (Document.parseWith parser source) := Document.ofTree_reportsMalformed hne
  obtain ⟨errors, heq, -⟩ := hmalformed
  cases h.symm.trans heq

/-- The document of a text stands in it, for any parser that keeps the text in its tree. -/
theorem Document.standsIn_of_parseWith {parser : String → SyntaxTree} {source : String}
    {document : Document} (hlossless : (parser source).Lossless source)
    (hgrammar : (parser source).Grammatical) (h : parseWith parser source = .ok document) :
    ∃ definitions, document.StandsIn source (parser source) definitions := by
  have herrors := SyntaxTree.errors_of_parseWith h
  have hkeeps := ofTree_keepsOrReports (hlossless.wellFormed hgrammar) herrors
  have houtcome : ofTree source (parser source) = .ok document := h
  rw [houtcome] at hkeeps
  have hexecutable := (hkeeps.accepts.1 ⟨document, rfl⟩).1
  have hmarks : List.Forall₂ (DocumentNode.Marks (.ofChars source.toList)) (parser source).texts
      ((collect (DefinitionNode.convert (.ofChars source.toList))
        (parser source).definitions).flatMap ExecutableDefinition.nodes) :=
    Matches.collect fun d hd => (hgrammar d hd).matches (hexecutable d hd)
  obtain ⟨pieces, hcovers, hstart⟩ := hlossless.startIn hgrammar
  refine ⟨_, hkeeps.holds, ?_, ?_⟩
  · have hmembers := (List.forall₂_and_left _ _).2
      ⟨fun t (ht : t ∈ (parser source).texts) => ht, hmarks⟩
    exact hmembers.imp fun t node h => h.2.standsAt hcovers hstart h.1
  · rw [DocumentNode.map_location hmarks]
    exact hlossless.inTextOrder hgrammar

/-- The nodes of an accepted text stand in it, each where its first word does, and their locations are
in the order of the text.  So it is for any parser, if its tree keeps the whole text and its nodes are
written as the grammar says; and so it is for the parser of this library. -/
theorem Document.nodes_inTextOrder :
    (∀ (parser : String → SyntaxTree) (source : String) (document : Document),
      (parser source).Lossless source → (parser source).Grammatical →
      parseWith parser source = .ok document →
      ∃ definitions, document.StandsIn source (parser source) definitions) ∧
    ∀ (source : String) (document : Document), parse source = .ok document →
      ∃ definitions, document.StandsIn source (SyntaxTree.ofSource source) definitions := by
  refine ⟨fun _ _ _ => standsIn_of_parseWith, fun source document h => ?_⟩
  have herrors : (SyntaxTree.ofSource source).errors = [] := SyntaxTree.errors_of_parseWith h
  obtain ⟨hlossless, hgrammar⟩ := SyntaxTree.lossless_ofSource herrors
  exact standsIn_of_parseWith hlossless hgrammar h

/-- A text with a comment, a byte order mark, commas in odd places and characters of several bytes. -/
def scatteredText : String :=
  "# é\n\ufeffquery Q($n: Int,,$m: [S!] = [\"€\"]) \x7b,\n" ++
    " a: f(s: \"é€\") \x7b ... on T \x7b h \x7d \x7d,...F \x7d\n\"é\" fragment on T \x7b k \x7d"

theorem Document.scatteredText_inTextOrder :
    ∃ document byTree byOwn, parse scatteredText = .ok document ∧
      (SyntaxTree.ofSource scatteredText).Lossless scatteredText ∧
      (SyntaxTree.ofSource scatteredText).Grammatical ∧
      document.StandsIn scatteredText (SyntaxTree.ofSource scatteredText) byTree ∧
      document.StandsIn scatteredText (SyntaxTree.ofSource scatteredText) byOwn ∧
      document.operations.map (fun o => o.nodes.map DocumentNode.location) =
        [[some ⟨2, 2⟩, some ⟨2, 10⟩, some ⟨2, 19⟩, some ⟨3, 2⟩, some ⟨3, 18⟩,
          some ⟨3, 29⟩, some ⟨3, 35⟩]] ∧
      document.fragments.map (fun e => e.2.nodes.map DocumentNode.location) =
        [[some ⟨4, 1⟩, some ⟨4, 21⟩]] := by
  have hlocations : (parse scatteredText).toOption.map (fun document =>
      (document.operations.map (fun o => o.nodes.map DocumentNode.location),
        document.fragments.map (fun e => e.2.nodes.map DocumentNode.location))) =
      some ([[some ⟨2, 2⟩, some ⟨2, 10⟩, some ⟨2, 19⟩, some ⟨3, 2⟩, some ⟨3, 18⟩,
        some ⟨3, 29⟩, some ⟨3, 35⟩]], [[some ⟨4, 1⟩, some ⟨4, 21⟩]]) := by
    decide +kernel
  cases hparse : parse scatteredText with
  | error errors =>
    rw [hparse] at hlocations
    cases hlocations
  | ok document =>
    rw [hparse] at hlocations
    obtain ⟨hoperations, hfragments⟩ := Prod.mk.inj (Option.some.inj hlocations)
    have herrors : (SyntaxTree.ofSource scatteredText).errors = [] :=
      SyntaxTree.errors_of_parseWith hparse
    obtain ⟨hlossless, hgrammar⟩ := SyntaxTree.lossless_ofSource herrors
    obtain ⟨hany, hown⟩ := nodes_inTextOrder
    obtain ⟨byTree, htree⟩ := hany SyntaxTree.ofSource scatteredText document hlossless hgrammar hparse
    obtain ⟨byOwn, hstands⟩ := hown scatteredText document hparse
    exact ⟨document, byTree, byOwn, rfl, hlossless, hgrammar, htree, hstands, hoperations, hfragments⟩

end GraphQLEngine
