/-
The names in a document.

`Document.names` lists every name that a document holds, and `SyntaxTree.names`
every name in a tree.  A conversion takes names over from its node, in their
order, and makes none of its own; so the names in a document are some of those
in the tree that it was made of, whatever parser made the tree.
-/
import GraphQLEngine.Document.Reading
import GraphQLEngine.Proofs.Registration

namespace GraphQLEngine

/-! ## Names in documents -/

mutual

/-- The names in a literal: enum values, variables and the keys of objects. -/
def Literal.names : Literal → List Name
  | .enumValue name => [name]
  | .variableRef name => [name]
  | .list items => Literal.namesOfItems items
  | .object fields => Literal.namesOfFields fields
  | .null => []
  | .string _ => []
  | .float _ => []
  | .int _ => []
  | .boolean _ => []

def Literal.namesOfItems : List Literal → List Name
  | [] => []
  | item :: rest => item.names ++ Literal.namesOfItems rest

def Literal.namesOfFields : List (Name × Literal) → List Name
  | [] => []
  | (name, value) :: rest => name :: (value.names ++ Literal.namesOfFields rest)

end

/-- The name of an argument, and those in its value. -/
def Argument.names (a : Argument) : List Name :=
  a.name :: a.value.names

/-- The name of a directive, and those in its arguments. -/
def Directive.names (d : Directive) : List Name :=
  d.name :: d.arguments.flatMap Argument.names

mutual

/-- The names in a selection and in all selections below it: aliases, fields, fragments, type
conditions, and those in arguments and directives. -/
def Selection.names : Selection → List Name
  | .field ⟨alias?, name, arguments, directives, selections, _⟩ =>
    alias?.toList ++ name :: (arguments.flatMap Argument.names ++
      (directives.flatMap Directive.names ++ Selection.namesOfAll selections))
  | .spread ⟨fragment, directives, _⟩ => fragment :: directives.flatMap Directive.names
  | .inlineFragment ⟨typeCondition, directives, selections, _⟩ =>
    typeCondition.toList ++ (directives.flatMap Directive.names ++ Selection.namesOfAll selections)

def Selection.namesOfAll : List Selection → List Name
  | [] => []
  | s :: rest => s.names ++ Selection.namesOfAll rest

end

/-- The names of a variable and of its type, and those in its default. -/
def VariableDefinition.names (d : VariableDefinition) : List Name :=
  d.name :: d.type.innerName :: d.default?.elim [] Literal.names

def Operation.names (o : Operation) : List Name :=
  o.name?.toList ++ (o.variableDefinitions.flatMap VariableDefinition.names ++
    (o.directives.flatMap Directive.names ++ Selection.namesOfAll o.selections))

def Fragment.names (f : Fragment) : List Name :=
  f.name :: f.typeCondition :: (f.directives.flatMap Directive.names ++
    Selection.namesOfAll f.selections)

/-- All names in a document, the keys of its fragments included. -/
def Document.names (document : Document) : List Name :=
  document.operations.flatMap Operation.names ++
    document.fragments.flatMap (fun e => e.1 :: e.2.names)

/-! ## Names in trees -/

def TypeNode.names : TypeNode → List Name
  | .named name? => name?.toList
  | .list (some item) => item.names
  | .list none => []
  | .nonNull (some type) => type.names
  | .nonNull none => []

mutual

/-- The names in a value: enum values, variables and the keys of objects. -/
def ValueNode.names : ValueNode → List Name
  | .variable name? => name?.toList
  | .enumValue name? => name?.toList
  | .list items => ValueNode.namesOfItems items
  | .object fields => ValueNode.namesOfFields fields
  | .string _ => []
  | .number _ => []
  | .boolean _ => []
  | .null => []

def ValueNode.namesOfItems : List ValueNode → List Name
  | [] => []
  | item :: rest => item.names ++ ValueNode.namesOfItems rest

def ValueNode.namesOfFields : List (Option Name × Option ValueNode) → List Name
  | [] => []
  | (name?, some value) :: rest => name?.toList ++ (value.names ++ ValueNode.namesOfFields rest)
  | (name?, none) :: rest => name?.toList ++ ValueNode.namesOfFields rest

end

def ArgumentNode.names (node : ArgumentNode) : List Name :=
  node.name?.toList ++ node.value?.elim [] ValueNode.names

def DirectiveNode.names (node : DirectiveNode) : List Name :=
  node.name?.toList ++ node.arguments.flatMap ArgumentNode.names

mutual

/-- The names in a selection and in all selections below it. -/
def SelectionNode.names : SelectionNode → List Name
  | .field ⟨_, alias?, name?, arguments, directives, selections?⟩ =>
    alias?.join.toList ++ (name?.toList ++ (arguments.flatMap ArgumentNode.names ++
      (directives.flatMap DirectiveNode.names ++ match selections? with
        | some selections => SelectionNode.namesOfAll selections
        | none => [])))
  | .spread ⟨_, name?, directives⟩ => name?.toList ++ directives.flatMap DirectiveNode.names
  | .inlineFragment ⟨_, typeCondition?, directives, selections?⟩ =>
    typeCondition?.join.toList ++ (directives.flatMap DirectiveNode.names ++ match selections? with
      | some selections => SelectionNode.namesOfAll selections
      | none => [])

def SelectionNode.namesOfAll : List SelectionNode → List Name
  | [] => []
  | node :: rest => node.names ++ SelectionNode.namesOfAll rest

end

def VariableDefinitionNode.names (node : VariableDefinitionNode) : List Name :=
  node.name?.toList ++ (node.type?.elim [] TypeNode.names ++
    node.default?.join.elim [] ValueNode.names)

/-- The names in an operation, of which its keyword is none. -/
def OperationNode.names (node : OperationNode) : List Name :=
  node.name?.toList ++ (node.variableDefinitions.flatMap VariableDefinitionNode.names ++
    (node.directives.flatMap DirectiveNode.names ++
      SelectionNode.namesOfAll (node.selections?.getD [])))

def FragmentNode.names (node : FragmentNode) : List Name :=
  node.name?.toList ++ (node.typeCondition?.join.toList ++
    (node.directives.flatMap DirectiveNode.names ++
      SelectionNode.namesOfAll (node.selections?.getD [])))

/-- The names in a definition; of the type system, none are kept. -/
def DefinitionNode.names : DefinitionNode → List Name
  | .operation node => node.names
  | .fragment node => node.names
  | .typeSystem _ _ => []

/-- All names in a tree. -/
def SyntaxTree.names (tree : SyntaxTree) : List Name :=
  tree.definitions.flatMap DefinitionNode.names

theorem ValueNode.namesOfItems_eq_flatMap (items : List ValueNode) :
    namesOfItems items = items.flatMap names := by
  induction items with
  | nil => rfl
  | cons item rest ih => rw [namesOfItems, ih, List.flatMap_cons]

theorem ValueNode.namesOfFields_eq_flatMap (fields : List (Option Name × Option ValueNode)) :
    namesOfFields fields = fields.flatMap (fun f => f.1.toList ++ f.2.elim [] names) := by
  induction fields with
  | nil => rfl
  | cons f rest ih =>
    obtain ⟨name?, value?⟩ := f
    cases value? with
    | none => rw [namesOfFields, ih, List.flatMap_cons, Option.elim_none, List.append_nil]
    | some value => rw [namesOfFields, ih, List.flatMap_cons, Option.elim_some, List.append_assoc]

theorem SelectionNode.namesOfAll_eq_flatMap (nodes : List SelectionNode) :
    namesOfAll nodes = nodes.flatMap names := by
  induction nodes with
  | nil => rfl
  | cons node rest ih => rw [namesOfAll, ih, List.flatMap_cons]

/-! ## What conversion does to names -/

/-- Nodes one after the other, of which some become nothing. -/
theorem names_collect {N T : Type} {convert : N → Option T} {names : N → List Name}
    {names' : T → List Name} (h : ∀ node t, convert node = some t → (names' t).Sublist (names node))
    (nodes : List N) : ((collect convert nodes).flatMap names').Sublist (nodes.flatMap names) := by
  induction nodes with
  | nil => exact .slnil
  | cons node rest ih =>
    rw [List.flatMap_cons, collect, List.filterMap_cons]
    cases hnode : convert node with
    | none => exact ih.trans (List.sublist_append_right _ _)
    | some t => exact (h node t hnode).append ih

theorem TypeRef.innerName_nonNull (t : TypeRef) : t.nonNull.innerName = t.innerName := by
  cases t <;> rfl

theorem TypeNode.names_convert : ∀ {node : TypeNode} {t : TypeRef}, node.convert = some t →
    [t.innerName].Sublist node.names
  | .named name?, t, h => by
      obtain ⟨n, rfl, rfl⟩ := Option.map_eq_some_iff.1 h
      exact .refl _
  | .list (some item), t, h => by
      obtain ⟨u, hu, rfl⟩ := Option.map_eq_some_iff.1 h
      have hitem := names_convert hu
      exact hitem
  | .list none, t, h => by cases h
  | .nonNull (some type), t, h => by
      obtain ⟨u, hu, rfl⟩ := Option.map_eq_some_iff.1 h
      have htype := names_convert hu
      rwa [← u.innerName_nonNull] at htype
  | .nonNull none, t, h => by cases h

mutual

theorem ValueNode.names_convert : ∀ {node : ValueNode} {l : Literal}, node.convert = some l →
    l.names.Sublist node.names
  | .variable name?, l, h => by
      obtain ⟨n, rfl, rfl⟩ := Option.map_eq_some_iff.1 h
      exact .refl _
  | .enumValue name?, l, h => by
      obtain ⟨n, rfl, rfl⟩ := Option.map_eq_some_iff.1 h
      exact .refl _
  | .list items, l, h => by
      cases h
      exact names_convertItems items
  | .object fields, l, h => by
      cases h
      exact names_convertFields fields
  | .string s, l, h => by
      cases h
      exact .refl _
  | .number text, l, h => by
      cases h
      unfold NumberText.literal
      dsimp only
      split <;> exact .refl _
  | .boolean b, l, h => by
      cases h
      exact .refl _
  | .null, l, h => by
      cases h
      exact .refl _

theorem ValueNode.names_convertItems : ∀ items : List ValueNode,
    (Literal.namesOfItems (ValueNode.convertItems items)).Sublist (ValueNode.namesOfItems items)
  | [] => .slnil
  | item :: rest => by
      rw [convertItems, namesOfItems]
      have hrest := names_convertItems rest
      cases hitem : item.convert with
      | none => exact hrest.trans (List.sublist_append_right _ _)
      | some l => exact (ValueNode.names_convert hitem).append hrest

theorem ValueNode.names_convertFields : ∀ fields : List (Option Name × Option ValueNode),
    (Literal.namesOfFields (ValueNode.convertFields fields)).Sublist (ValueNode.namesOfFields fields)
  | [] => .slnil
  | (some n, some value) :: rest => by
      rw [convertFields, namesOfFields]
      have hrest := names_convertFields rest
      cases hvalue : value.convert with
      | none => exact (hrest.trans (List.sublist_append_right _ _)).cons n
      | some l => exact ((ValueNode.names_convert hvalue).append hrest).cons_cons n
  | (some n, none) :: rest => (names_convertFields rest).cons n
  | (none, some value) :: rest => (names_convertFields rest).trans (List.sublist_append_right _ _)
  | (none, none) :: rest => names_convertFields rest

end

theorem ArgumentNode.names_convert {node : ArgumentNode} {a : Argument}
    (h : node.convert = some a) : a.names.Sublist node.names := by
  simp only [convert, Option.bind_eq_bind, Option.bind_eq_some_iff] at h
  obtain ⟨n, hn, v, hv, l, hl, ha⟩ := h
  cases ha
  rw [names, hn, hv]
  exact (ValueNode.names_convert hl).cons_cons n

theorem names_arguments (nodes : List ArgumentNode) :
    ((collect ArgumentNode.convert nodes).flatMap Argument.names).Sublist
      (nodes.flatMap ArgumentNode.names) :=
  names_collect (fun _ _ => ArgumentNode.names_convert) nodes

theorem DirectiveNode.names_convert {node : DirectiveNode} {d : Directive}
    (h : node.convert = some d) : d.names.Sublist node.names := by
  simp only [convert, Option.bind_eq_bind, Option.bind_eq_some_iff] at h
  obtain ⟨n, hn, hd⟩ := h
  cases hd
  rw [names, hn]
  exact (names_arguments node.arguments).cons_cons n

theorem names_directives (nodes : List DirectiveNode) :
    ((collect DirectiveNode.convert nodes).flatMap Directive.names).Sublist
      (nodes.flatMap DirectiveNode.names) :=
  names_collect (fun _ _ => DirectiveNode.names_convert) nodes

/-- A name that may be missing altogether, but must be known if it is there. -/
theorem join_of_convertOptional {name? : Option (Option Name)} {n? : Option Name}
    (h : convertOptional id name? = some n?) : name?.join = n? := by
  cases name? with
  | none =>
    cases h
    rfl
  | some n? =>
    cases n? with
    | none => cases h
    | some n =>
      cases h
      rfl

section

variable {index : LineIndex}

mutual

theorem SelectionNode.names_convert : ∀ {node : SelectionNode} {s : Selection},
    node.convert index = some s → s.names.Sublist node.names
  | .field ⟨text, alias?, name?, args, dirs, some selections⟩, s, h => by
      simp only [convert, Option.bind_eq_bind, Option.bind_eq_some_iff] at h
      obtain ⟨aliased, haliased, n, hn, hs⟩ := h
      cases hs
      rw [names, join_of_convertOptional haliased, hn]
      exact (List.Sublist.refl _).append (((names_arguments args).append
        ((names_directives dirs).append (names_convertAll selections))).cons_cons n)
  | .field ⟨text, alias?, name?, args, dirs, none⟩, s, h => by
      simp only [convert, Option.bind_eq_bind, Option.bind_eq_some_iff] at h
      obtain ⟨aliased, haliased, n, hn, hs⟩ := h
      cases hs
      rw [names, join_of_convertOptional haliased, hn]
      exact (List.Sublist.refl _).append (((names_arguments args).append
        ((names_directives dirs).append (.refl _))).cons_cons n)
  | .spread ⟨text, name?, dirs⟩, s, h => by
      obtain ⟨spread, hspread, rfl⟩ := Option.map_eq_some_iff.1 h
      obtain ⟨n, hn, hs⟩ := Option.bind_eq_some_iff.1 hspread
      cases hs
      cases hn
      exact (names_directives dirs).cons_cons n
  | .inlineFragment ⟨text, condition?, dirs, some selections⟩, s, h => by
      simp only [convert, Option.bind_eq_bind, Option.bind_eq_some_iff] at h
      obtain ⟨condition, hcondition, sels, hsels, hs⟩ := h
      cases hsels
      cases hs
      rw [names, join_of_convertOptional hcondition]
      exact (List.Sublist.refl _).append ((names_directives dirs).append (names_convertAll selections))
  | .inlineFragment ⟨text, condition?, dirs, none⟩, s, h => by
      simp only [convert, Option.bind_eq_bind, Option.bind_eq_some_iff] at h
      obtain ⟨condition, -, sels, hsels, -⟩ := h
      cases hsels

theorem SelectionNode.names_convertAll : ∀ nodes : List SelectionNode,
    (Selection.namesOfAll (SelectionNode.convertAll index nodes)).Sublist
      (SelectionNode.namesOfAll nodes)
  | [] => .slnil
  | node :: rest => by
      rw [namesOfAll, convertAll]
      have hrest := names_convertAll rest
      cases hnode : node.convert index with
      | none => exact hrest.trans (List.sublist_append_right _ _)
      | some s => exact (SelectionNode.names_convert hnode).append hrest

end

theorem VariableDefinitionNode.names_convert {node : VariableDefinitionNode} {d : VariableDefinition}
    (h : node.convert index = some d) : d.names.Sublist node.names := by
  simp only [convert, Option.bind_eq_bind, Option.bind_eq_some_iff] at h
  obtain ⟨default?, hdefault, n, hn, type, htype, t, ht, hd⟩ := h
  cases hd
  have hvalue : (default?.elim [] Literal.names).Sublist (node.default?.join.elim [] ValueNode.names) := by
    cases hnode : node.default? with
    | none =>
      rw [hnode] at hdefault
      cases hdefault
      exact .slnil
    | some v? =>
      rw [hnode] at hdefault
      obtain ⟨l, hl, rfl⟩ := Option.map_eq_some_iff.1 hdefault
      obtain ⟨v, rfl, hv⟩ := Option.bind_eq_some_iff.1 hl
      exact ValueNode.names_convert hv
  rw [names, hn, htype]
  exact ((TypeNode.names_convert ht).append hvalue).cons_cons n

theorem OperationNode.names_convert {node : OperationNode} {o : Operation}
    (h : node.convert index = some o) : o.names.Sublist node.names := by
  simp only [convert, Option.bind_eq_bind, Option.bind_eq_some_iff] at h
  obtain ⟨kind, -, selections, hselections, ho⟩ := h
  cases ho
  rw [names, hselections]
  have hvariables : ((collect (VariableDefinitionNode.convert index) node.variableDefinitions).flatMap
      VariableDefinition.names).Sublist
        (node.variableDefinitions.flatMap VariableDefinitionNode.names) :=
    names_collect (fun _ _ hd => VariableDefinitionNode.names_convert hd) _
  exact (List.Sublist.refl _).append (hvariables.append
    ((names_directives _).append (SelectionNode.names_convertAll selections)))

theorem FragmentNode.names_convert {node : FragmentNode} {f : Fragment}
    (h : node.convert index = some f) : f.names.Sublist node.names := by
  simp only [convert, Option.bind_eq_bind, Option.bind_eq_some_iff] at h
  obtain ⟨n, hn, condition, hcondition, selections, hselections, hf⟩ := h
  cases hf
  rw [names, hn, hcondition, hselections]
  exact (((names_directives _).append (SelectionNode.names_convertAll selections)).cons_cons
    condition).cons_cons n

end

/-! ## Names of a parsed document -/

namespace Document

variable {known : List Name}

theorem names_addOperation {document : Document} {o : Operation} (hdocument : document.names ⊆ known)
    (ho : o.names ⊆ known) : (document.addOperation o).names ⊆ known := by
  obtain ⟨hoperations, hfragments⟩ := List.append_subset.1 hdocument
  rw [names, addOperation, List.flatMap_append, List.flatMap_singleton]
  exact List.append_subset.2 ⟨List.append_subset.2 ⟨hoperations, ho⟩, hfragments⟩

theorem names_addFragment {document : Document} {f : Fragment} (hdocument : document.names ⊆ known)
    (hf : f.names ⊆ known) (hnew : document.fragments.contains f.name = false) :
    (document.addFragment f).names ⊆ known := by
  obtain ⟨hoperations, hfragments⟩ := List.append_subset.1 hdocument
  have hkey : f.name ∈ known := hf List.mem_cons_self
  rw [names, addFragment, OrderedMap.insert_of_not_contains f hnew, List.flatMap_append,
    List.flatMap_singleton]
  exact List.append_subset.2 ⟨hoperations,
    List.append_subset.2 ⟨hfragments, List.cons_subset.2 ⟨hkey, hf⟩⟩⟩

/-- A definition adds no names but its own. -/
theorem Draft.names_add (index : LineIndex) {draft : Draft} {d : DefinitionNode}
    (hdraft : draft.document.names ⊆ known) (hd : d.names ⊆ known) :
    (draft.add index d).document.names ⊆ known := by
  cases d with
  | operation node =>
    rw [add]
    cases hnode : node.convert index with
    | none => exact hdraft
    | some o =>
      exact names_addOperation hdraft
        (List.Subset.trans (OperationNode.names_convert hnode).subset hd)
  | fragment node =>
    rw [add]
    cases hnode : node.convert index with
    | none => exact hdraft
    | some f =>
      dsimp only
      split
      · exact hdraft
      · next hnew =>
        exact names_addFragment hdraft
          (List.Subset.trans (FragmentNode.names_convert hnode).subset hd) (Bool.eq_false_iff.2 hnew)
  | typeSystem kind text => exact hdraft

theorem Draft.names_foldl (index : LineIndex) {ds : List DefinitionNode} {draft : Draft}
    (hdraft : draft.document.names ⊆ known) (hds : ds.flatMap DefinitionNode.names ⊆ known) :
    (ds.foldl (Draft.add index) draft).document.names ⊆ known := by
  induction ds generalizing draft with
  | nil => exact hdraft
  | cons d ds ih =>
    rw [List.flatMap_cons, List.append_subset] at hds
    exact ih (draft.names_add index hdraft hds.1) hds.2

/-- The names in a document come from the tree of its text. -/
theorem names_of_parseWith {parser : String → SyntaxTree} {source : String} {document : Document}
    (h : parseWith parser source = .ok document) : document.names ⊆ (parser source).names := by
  unfold parseWith ofTree at h
  dsimp only at h
  split at h
  · cases h
    exact Draft.names_foldl _ (List.nil_subset _) (List.Subset.refl _)
  · cases h

end Document

end GraphQLEngine
