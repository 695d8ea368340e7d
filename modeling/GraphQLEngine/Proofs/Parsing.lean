/-
Parsing keeps or reports every definition.

What is wrong with a definition is said by the definitions before it
(`DefinitionNode.fault?`).  The conversion adds definitions one by one, and
each is in the document or its fault is in the list of errors.  That list is
in the order of the text, so that sorting it by location changes nothing.
-/
import Mathlib.Data.List.Forall2
import Mathlib.Data.List.Induction
import Mathlib.Data.List.Nodup
import GraphQLEngine.Proofs.Registration
import GraphQLEngine.Proofs.WrittenNodes

namespace GraphQLEngine

/-! ## The definitions of a tree -/

namespace DefinitionNode

def operation? : DefinitionNode → Option OperationNode
  | .operation node => some node
  | .fragment _ => none
  | .typeSystem _ _ => none

def fragment? : DefinitionNode → Option FragmentNode
  | .operation _ => none
  | .fragment node => some node
  | .typeSystem _ _ => none

/-- Operations and fragments. -/
def IsExecutable : DefinitionNode → Prop
  | .operation _ => True
  | .fragment _ => True
  | .typeSystem _ _ => False

/-- The names of the fragments among definitions, in order. -/
def fragmentNames (ds : List DefinitionNode) : List Name :=
  ds.filterMap (fun d => d.fragment?.bind FragmentNode.name?)

/-- What is wrong with a definition that stands after others. -/
def fault? (index : LineIndex) (earlier : List DefinitionNode) : DefinitionNode → Option ParseError
  | .operation _ => none
  | .fragment node => do
    let name ← node.name?
    if name ∈ fragmentNames earlier then
      some (.fragmentCollision name (node.text.location index))
    else none
  | .typeSystem kind text => some (.nonExecutable kind (text.location index))

/-- What is wrong with each of the definitions, in their order. -/
def faults (index : LineIndex) (ds : List DefinitionNode) : List ParseError :=
  ds.zipIdx.filterMap (fun p => p.1.fault? index (ds.take p.2))

end DefinitionNode

/-- What a document holds for an operation of a text. -/
structure OperationNode.Becomes (index : LineIndex) (node : OperationNode) (operation : Operation) :
    Prop where
  converted : node.convert index = some operation
  kind : node.kind? = some operation.kind
  name : node.name? = operation.name?
  location : operation.location = some (node.text.location index)

/-- What a document holds, and under which key, for a fragment of a text. -/
structure FragmentNode.Becomes (index : LineIndex) (node : FragmentNode) (entry : Name × Fragment) :
    Prop where
  converted : node.convert index = some entry.2
  key : node.name? = some entry.1
  name : node.name? = some entry.2.name
  typeCondition : node.typeCondition?.join = some entry.2.typeCondition
  location : entry.2.location = some (node.text.location index)

/-- What becomes of a text that consists of definitions: every one of them is kept, or all that is
wrong with them is reported. -/
structure KeepsOrReports (index : LineIndex) (ds : List DefinitionNode)
    (outcome : Except (List ParseError) Document) : Prop where
  accepts : (∃ document, outcome = .ok document) ↔
    (∀ d ∈ ds, d.IsExecutable) ∧ (DefinitionNode.fragmentNames ds).Nodup
  operations : ∀ document, outcome = .ok document →
    List.Forall₂ (OperationNode.Becomes index) (ds.filterMap DefinitionNode.operation?)
      document.operations
  fragments : ∀ document, outcome = .ok document →
    List.Forall₂ (FragmentNode.Becomes index) (ds.filterMap DefinitionNode.fragment?)
      document.fragments
  reports : ∀ errors, outcome = .error errors → errors = DefinitionNode.faults index ds

/-- What becomes of a text that does not fit the grammar at some offsets: these are reported, and all
errors are in the order of their locations. -/
def ReportsMalformed (index : LineIndex) (offsets : List Nat)
    (outcome : Except (List ParseError) Document) : Prop :=
  ∃ errors, outcome = .error errors ∧
    (∀ offset ∈ offsets, .malformed (index.locate offset) ∈ errors) ∧
    errors.Pairwise (fun a b => b.location.before a.location = false)

/-! ## One definition -/

theorem OperationNode.Complete.becomes {node : OperationNode} (h : node.Complete)
    (index : LineIndex) : ∃ operation, node.Becomes index operation := by
  obtain ⟨kind, hkind⟩ := Option.isSome_iff_exists.1 h.kind
  obtain ⟨selections, hselections⟩ := Option.isSome_iff_exists.1 h.selections
  have hconvert : node.convert index = some {
      kind := kind
      name? := node.name?
      variableDefinitions := collect (VariableDefinitionNode.convert index) node.variableDefinitions
      directives := collect DirectiveNode.convert node.directives
      selections := SelectionNode.convertAll index selections
      location := some (node.text.location index) } := by
    rw [convert, hkind, hselections]
    rfl
  exact ⟨_, hconvert, hkind, rfl, rfl⟩

theorem FragmentNode.Complete.becomes {node : FragmentNode} (h : node.Complete)
    (index : LineIndex) : ∃ fragment : Fragment, node.Becomes index (fragment.name, fragment) := by
  obtain ⟨name, hname⟩ := Option.isSome_iff_exists.1 h.name
  obtain ⟨typeCondition, htypeCondition⟩ := Option.isSome_iff_exists.1 h.typeCondition
  obtain ⟨selections, hselections⟩ := Option.isSome_iff_exists.1 h.selections
  have hconvert : node.convert index = some {
      name := name
      typeCondition := typeCondition
      directives := collect DirectiveNode.convert node.directives
      selections := SelectionNode.convertAll index selections
      location := some (node.text.location index) } := by
    rw [convert, hname, htypeCondition, hselections]
    rfl
  exact ⟨_, hconvert, hname, hname, htypeCondition, rfl⟩

theorem nodup_append_toList {names : List Name} {name? : Option Name} :
    (names ++ name?.toList).Nodup ↔ names.Nodup ∧ ∀ name, name? = some name → name ∉ names := by
  cases name? with
  | none =>
    rw [Option.toList_none, List.append_nil, and_iff_left]
    intro name heq
    cases heq
  | some name =>
    rw [Option.toList_some, ← List.concat_eq_append, List.nodup_concat, and_comm]
    refine and_congr_right' ⟨?_, fun h => h name rfl⟩
    intro h other heq
    cases heq
    exact h

/-- A last member that contributes nothing. -/
theorem filterMap_append_none {α β : Type} {f : α → Option β} {a : α} (h : f a = none)
    (l : List α) : (l ++ [a]).filterMap f = l.filterMap f := by
  rw [List.filterMap_append, List.filterMap_cons_none h, List.filterMap_nil, List.append_nil]

namespace DefinitionNode

variable {index : LineIndex}

theorem fragmentNames_append (ds : List DefinitionNode) (d : DefinitionNode) :
    fragmentNames (ds ++ [d]) = fragmentNames ds ++ (d.fragment?.bind FragmentNode.name?).toList := by
  rw [fragmentNames, List.filterMap_append]
  rfl

theorem faults_append (index : LineIndex) (ds : List DefinitionNode) (d : DefinitionNode) :
    faults index (ds ++ [d]) = faults index ds ++ (d.fault? index ds).toList := by
  rw [faults, List.zipIdx_append, List.filterMap_append]
  congr 1
  · refine List.filterMap_congr fun p hp => ?_
    have hlt := (List.mem_zipIdx hp).2.1
    rw [List.take_append_of_le_length (by omega)]
  · have hearlier : (ds ++ [d]).take (0 + ds.length) = ds := by
      rw [Nat.zero_add, List.take_left]
    rw [List.zipIdx_singleton, List.filterMap_cons, hearlier]
    cases d.fault? index ds <;> rfl

/-- A fault is reported where its definition stands. -/
theorem location_of_fault {earlier : List DefinitionNode} {d : DefinitionNode} {e : ParseError}
    (h : d.fault? index earlier = some e) : e.location = d.text.location index := by
  cases d with
  | operation node => cases h
  | fragment node =>
    obtain ⟨name, hname, h⟩ := Option.bind_eq_some_iff.1 h
    split at h
    · cases h
      rfl
    · cases h
  | typeSystem kind text =>
    cases h
    rfl

/-- Nothing is wrong with an operation, nor with a fragment whose name is new. -/
theorem fault?_eq_none_iff {earlier : List DefinitionNode} {d : DefinitionNode} :
    d.fault? index earlier = none ↔
      d.IsExecutable ∧ ∀ name, d.fragment?.bind FragmentNode.name? = some name →
        name ∉ fragmentNames earlier := by
  cases d with
  | operation node => simp [fault?, IsExecutable, fragment?]
  | fragment node =>
    show (node.name?.bind fun name => _) = none ↔ True ∧ ∀ name, node.name? = some name → _
    cases node.name? with
    | none => simp
    | some name => simp
  | typeSystem kind text => simp [fault?, IsExecutable]

/-- Nothing is wrong with definitions that an executable document may hold, if no two fragments have
one name. -/
theorem faults_eq_nil_iff (index : LineIndex) (ds : List DefinitionNode) :
    faults index ds = [] ↔ (∀ d ∈ ds, d.IsExecutable) ∧ (fragmentNames ds).Nodup := by
  induction ds using List.reverseRecOn with
  | nil => simp [faults, fragmentNames]
  | append_singleton ds d ih =>
    rw [faults_append, List.append_eq_nil_iff, ih, Option.toList_eq_nil_iff, fault?_eq_none_iff,
      fragmentNames_append, nodup_append_toList, List.forall_mem_append, List.forall_mem_singleton]
    exact and_and_and_comm

/-- Faults are in the order of the text. -/
theorem locations_faults (ds : List DefinitionNode) :
    ((faults index ds).map ParseError.location).Sublist (ds.map (fun d => d.text.location index)) := by
  induction ds using List.reverseRecOn with
  | nil => exact List.Sublist.refl []
  | append_singleton ds d ih =>
    rw [faults_append, List.map_append, List.map_append]
    refine ih.append ?_
    cases hfault : d.fault? index ds with
    | none => exact List.nil_sublist _
    | some e =>
      show [e.location].Sublist _
      rw [location_of_fault hfault]
      exact List.Sublist.refl _

end DefinitionNode

/-! ## All definitions -/

namespace Document

variable {index : LineIndex}

/-- A draft after some definitions, none of which lacks anything. -/
structure Draft.Follows (index : LineIndex) (ds : List DefinitionNode) (draft : Draft) : Prop where
  operations : List.Forall₂ (OperationNode.Becomes index)
    (ds.filterMap DefinitionNode.operation?) draft.document.operations
  names : ∀ name, name ∈ draft.document.fragments.keys ↔ name ∈ DefinitionNode.fragmentNames ds
  fragments : (DefinitionNode.fragmentNames ds).Nodup → List.Forall₂ (FragmentNode.Becomes index)
    (ds.filterMap DefinitionNode.fragment?) draft.document.fragments
  errors : draft.errors = DefinitionNode.faults index ds

variable {ds : List DefinitionNode} {draft : Draft}

theorem Draft.Follows.add_operation (h : draft.Follows index ds) {node : OperationNode}
    (hnode : node.Complete) :
    (draft.add index (.operation node)).Follows index (ds ++ [.operation node]) := by
  obtain ⟨operation, hbecomes⟩ := hnode.becomes index
  have hnames : DefinitionNode.fragmentNames (ds ++ [.operation node]) =
      DefinitionNode.fragmentNames ds := filterMap_append_none rfl ds
  have hfragments : (ds ++ [DefinitionNode.operation node]).filterMap DefinitionNode.fragment? =
      ds.filterMap DefinitionNode.fragment? := filterMap_append_none rfl ds
  rw [Draft.add, hbecomes.converted]
  constructor
  · rw [List.filterMap_append]
    exact List.rel_append h.operations (.cons hbecomes .nil)
  · rw [hnames]
    exact h.names
  · rw [hnames, hfragments]
    exact h.fragments
  · rw [DefinitionNode.faults_append]
    exact h.errors.trans (List.append_nil _).symm

theorem Draft.Follows.add_fragment (h : draft.Follows index ds) {node : FragmentNode}
    (hnode : node.Complete) :
    (draft.add index (.fragment node)).Follows index (ds ++ [.fragment node]) := by
  obtain ⟨fragment, hbecomes⟩ := hnode.becomes index
  have hnames : DefinitionNode.fragmentNames (ds ++ [.fragment node]) =
      DefinitionNode.fragmentNames ds ++ [fragment.name] := by
    rw [DefinitionNode.fragmentNames_append]
    show _ ++ node.name?.toList = _
    rw [hbecomes.name]
    rfl
  have hknown : draft.document.fragments.contains fragment.name = true ↔
      fragment.name ∈ DefinitionNode.fragmentNames ds :=
    OrderedMap.contains_iff_mem_keys.trans (h.names fragment.name)
  have hoperations : (ds ++ [DefinitionNode.fragment node]).filterMap DefinitionNode.operation? =
      ds.filterMap DefinitionNode.operation? := filterMap_append_none rfl ds
  rw [Draft.add, hbecomes.converted]
  dsimp only
  split
  · next hcontains =>
    have hmem := hknown.1 hcontains
    have hlocation : fragment.location = some (node.text.location index) := hbecomes.location
    constructor
    · rw [hoperations]
      exact h.operations
    · intro name
      rw [hnames, h.names, List.mem_append, List.mem_singleton, or_iff_left_of_imp]
      intro heq
      rwa [heq]
    · intro hnodup
      rw [hnames, List.nodup_append] at hnodup
      exact absurd rfl (hnodup.2.2 _ hmem _ (List.mem_singleton_self _))
    · simp [DefinitionNode.faults_append, DefinitionNode.fault?, hbecomes.name, hmem, hlocation,
        h.errors]
  · next hcontains =>
    have hmem := mt hknown.2 hcontains
    have hinsert : (draft.document.addFragment fragment).fragments =
        draft.document.fragments ++ [(fragment.name, fragment)] :=
      OrderedMap.insert_of_not_contains fragment (Bool.eq_false_iff.2 hcontains)
    constructor
    · rw [hoperations]
      exact h.operations
    · intro name
      have hkeys : (draft.document.addFragment fragment).fragments.keys =
          draft.document.fragments.keys ++ [fragment.name] := by
        rw [hinsert]
        exact List.map_append
      rw [hkeys, hnames, List.mem_append, List.mem_append, h.names]
    · intro hnodup
      rw [hnames, List.nodup_append] at hnodup
      show List.Forall₂ _ _ (draft.document.addFragment fragment).fragments
      rw [hinsert, List.filterMap_append]
      exact List.rel_append (h.fragments hnodup.1) (.cons hbecomes .nil)
    · simp [DefinitionNode.faults_append, DefinitionNode.fault?, hbecomes.name, hmem, h.errors]

theorem Draft.Follows.add_typeSystem (h : draft.Follows index ds) (kind : TypeSystemDefinition)
    (text : NodeText) :
    (draft.add index (.typeSystem kind text)).Follows index (ds ++ [.typeSystem kind text]) := by
  have hnames : DefinitionNode.fragmentNames (ds ++ [.typeSystem kind text]) =
      DefinitionNode.fragmentNames ds := filterMap_append_none rfl ds
  rw [Draft.add]
  constructor
  · rw [filterMap_append_none (by rfl)]
    exact h.operations
  · rw [hnames]
    exact h.names
  · rw [hnames, filterMap_append_none (by rfl)]
    exact h.fragments
  · rw [DefinitionNode.faults_append, ← h.errors]
    rfl

/-- Each definition is added to the document, or its fault to the errors. -/
theorem Draft.Follows.add (h : draft.Follows index ds) {d : DefinitionNode} (hd : d.Complete) :
    (draft.add index d).Follows index (ds ++ [d]) := by
  cases d with
  | operation node => exact h.add_operation hd
  | fragment node => exact h.add_fragment hd
  | typeSystem kind text => exact h.add_typeSystem kind text

/-- The draft of all definitions of a tree without syntax errors. -/
theorem follows_foldl (index : LineIndex) {ds : List DefinitionNode} (h : ∀ d ∈ ds, d.Complete) :
    (ds.foldl (Draft.add index) ⟨empty, []⟩).Follows index ds := by
  induction ds using List.reverseRecOn with
  | nil => exact ⟨.nil, fun _ => Iff.rfl, fun _ => .nil, rfl⟩
  | append_singleton ds d ih =>
    rw [List.foldl_append]
    have ⟨hearlier, hd⟩ := List.forall_mem_append.1 h
    exact (ih hearlier).add (hd d (List.mem_singleton_self d))

/-! ## Syntax errors -/

/-- Errors stay. -/
theorem mem_errors_add {draft : Draft} {e : ParseError} (h : e ∈ draft.errors) (d : DefinitionNode) :
    e ∈ (draft.add index d).errors := by
  cases d with
  | operation node =>
    rw [Draft.add]
    split
    · exact h
    · exact h
  | fragment node =>
    rw [Draft.add]
    split
    · split
      · exact List.mem_append_left _ h
      · exact h
    · exact h
  | typeSystem kind text => exact List.mem_append_left _ h

theorem mem_errors_foldl {e : ParseError} (ds : List DefinitionNode) {draft : Draft}
    (h : e ∈ draft.errors) : e ∈ (ds.foldl (Draft.add index) draft).errors := by
  induction ds generalizing draft with
  | nil => exact h
  | cons d rest ih => exact ih (mem_errors_add h d)

end Document

/-! ## The order of errors -/

namespace ParseError

theorem inOrder_iff {a b : ParseError} :
    inOrder a b = true ↔ b.location.before a.location = false := by
  rw [inOrder, Bool.not_eq_true']

theorem inOrder_trans (a b c : ParseError) (hab : inOrder a b) (hbc : inOrder b c) : inOrder a c := by
  rw [inOrder_iff, Bool.eq_false_iff, ne_eq, Location.before_iff] at *
  omega

theorem inOrder_total (a b : ParseError) : (inOrder a b || inOrder b a) = true := by
  rw [Bool.or_eq_true, inOrder_iff, inOrder_iff, Bool.eq_false_iff, Bool.eq_false_iff, ne_eq, ne_eq,
    Location.before_iff, Location.before_iff]
  omega

end ParseError

/-- The faults of definitions that start one after the other are in the order of their locations. -/
theorem SyntaxTree.WellFormed.faults_inOrder {text : List Char} {tree : SyntaxTree}
    (h : tree.WellFormed text) :
    (DefinitionNode.faults (.ofChars text) tree.definitions).Pairwise
      (fun a b => ParseError.inOrder a b) := by
  have hlocations : (tree.definitions.map
      (fun d => d.text.location (.ofChars text))).Pairwise (fun a b => a.before b) := by
    rw [List.pairwise_map]
    refine (List.pairwise_map.1 h.ordered).imp_of_mem ?_
    intro a b ha hb hlt
    exact LineIndex.before_locate (h.atBoundaries a ha) (h.atBoundaries b hb) hlt
  have hfaults := hlocations.sublist (DefinitionNode.locations_faults tree.definitions)
  refine (List.pairwise_map.1 hfaults).imp ?_
  intro a b hab
  exact ParseError.inOrder_iff.2 (Location.before_asymm hab)

/-! ## All of a text -/

namespace Document

/-- Without syntax errors a tree becomes the document of its definitions if they have no faults, and
else the list of these. -/
theorem ofTree_of_errors_nil {source : String} {tree : SyntaxTree}
    (h : tree.WellFormed source.toList) (herrors : tree.errors = []) :
    ∃ draft : Draft, draft.Follows (.ofChars source.toList) tree.definitions ∧
      ofTree source tree =
        if draft.errors.isEmpty then .ok draft.document else .error draft.errors := by
  have hfollows := follows_foldl (.ofChars source.toList) h.complete
  refine ⟨_, hfollows, ?_⟩
  rw [ofTree, herrors]
  show (if _ then _ else Except.error (List.mergeSort _ _)) = _
  rw [List.map_nil, hfollows.errors, List.mergeSort_of_pairwise h.faults_inOrder]

theorem ofTree_keepsOrReports {source : String} {tree : SyntaxTree}
    (h : tree.WellFormed source.toList) (herrors : tree.errors = []) :
    KeepsOrReports (.ofChars source.toList) tree.definitions (ofTree source tree) := by
  obtain ⟨draft, hdraft, htree⟩ := ofTree_of_errors_nil h herrors
  have hfaults := DefinitionNode.faults_eq_nil_iff (.ofChars source.toList) tree.definitions
  rw [← hdraft.errors] at hfaults
  rw [htree]
  by_cases hnone : draft.errors = []
  · have hexecutable := hfaults.1 hnone
    rw [hnone]
    refine ⟨⟨fun _ => hexecutable, fun _ => ⟨_, rfl⟩⟩, ?_, ?_, ?_⟩
    · intro document heq
      cases heq
      exact hdraft.operations
    · intro document heq
      cases heq
      exact hdraft.fragments hexecutable.2
    · intro errors heq
      cases heq
  · rw [if_neg (mt List.isEmpty_iff.1 hnone)]
    refine ⟨⟨?_, fun hexecutable => absurd (hfaults.2 hexecutable) hnone⟩, ?_, ?_, ?_⟩
    · rintro ⟨document, heq⟩
      cases heq
    · intro document heq
      cases heq
    · intro document heq
      cases heq
    · intro errors heq
      cases heq
      exact hdraft.errors

theorem ofTree_reportsMalformed {source : String} {tree : SyntaxTree} (h : tree.errors ≠ []) :
    ReportsMalformed (.ofChars source.toList) tree.errors (ofTree source tree) := by
  generalize hindex : LineIndex.ofChars source.toList = index
  generalize hdraft : tree.definitions.foldl (Draft.add index)
    ⟨empty, tree.errors.map (fun offset => .malformed (index.locate offset))⟩ = draft
  have hmem : ∀ offset ∈ tree.errors, .malformed (index.locate offset) ∈ draft.errors := by
    intro offset hoffset
    rw [← hdraft]
    exact mem_errors_foldl _ (List.mem_map_of_mem hoffset)
  obtain ⟨offset, hoffset⟩ := List.exists_mem_of_ne_nil _ h
  refine ⟨draft.errors.mergeSort ParseError.inOrder, ?_, ?_, ?_⟩
  · have hempty : draft.errors.isEmpty = false :=
      List.isEmpty_eq_false_iff_exists_mem.2 ⟨_, hmem offset hoffset⟩
    rw [ofTree, hindex, hdraft, hempty]
    rfl
  · exact fun offset hoffset => List.mem_mergeSort.2 (hmem offset hoffset)
  · exact (List.pairwise_mergeSort ParseError.inOrder_trans ParseError.inOrder_total _).imp
      ParseError.inOrder_iff.1

/-- The parser of this library promises what is asked of one below. -/
theorem parse_keepsOrReports (source : String) :
    ((SyntaxTree.ofSource source).errors = [] →
      KeepsOrReports (.ofChars source.toList) (SyntaxTree.ofSource source).definitions
        (parse source)) ∧
    ((SyntaxTree.ofSource source).errors ≠ [] →
      ReportsMalformed (.ofChars source.toList) (SyntaxTree.ofSource source).errors (parse source)) :=
  ⟨fun h => ofTree_keepsOrReports (faithful_ofSource source h) h, ofTree_reportsMalformed⟩

/-- Parsing with a faithful parser keeps or reports every definition, and reports syntax errors in
the order of the text. -/
theorem parseWith_keepsOrReports {parser : String → SyntaxTree} (h : Faithful parser)
    (source : String) :
    ((parser source).errors = [] →
      KeepsOrReports (.ofChars source.toList) (parser source).definitions
        (parseWith parser source)) ∧
    ((parser source).errors ≠ [] →
      ReportsMalformed (.ofChars source.toList) (parser source).errors
        (parseWith parser source)) :=
  ⟨fun herrors => ofTree_keepsOrReports (h source herrors) herrors, ofTree_reportsMalformed⟩

/-- A text with a type definition and a repeated fragment. -/
def clashingText : String :=
  "scalar A\nfragment F on A\x7ba\x7d\nfragment F on A\x7bb\x7d"

theorem parseWith_clashingText :
    parseWith SyntaxTree.ofSource clashingText =
        .error [.nonExecutable .type ⟨1, 1⟩, .fragmentCollision "F" ⟨3, 1⟩] ∧
      ReportsMalformed (.ofChars "query Q".toList) (SyntaxTree.ofSource "query Q").errors
        (parseWith SyntaxTree.ofSource "query Q") := by
  have hfits : (SyntaxTree.ofSource clashingText).errors = [] := by decide +kernel
  have hfaults : DefinitionNode.faults (.ofChars clashingText.toList)
      (SyntaxTree.ofSource clashingText).definitions =
        [.nonExecutable .type ⟨1, 1⟩, .fragmentCollision "F" ⟨3, 1⟩] := by decide +kernel
  have hkeeps := (parseWith_keepsOrReports faithful_ofSource clashingText).1 hfits
  have hends : (SyntaxTree.ofSource "query Q").errors ≠ [] := by decide +kernel
  refine ⟨?_, (parseWith_keepsOrReports faithful_ofSource "query Q").2 hends⟩
  cases houtcome : parseWith SyntaxTree.ofSource clashingText with
  | ok document =>
    have hexecutable := hkeeps.accepts.1 ⟨document, houtcome⟩
    rw [← DefinitionNode.faults_eq_nil_iff (.ofChars clashingText.toList), hfaults] at hexecutable
    cases hexecutable
  | error errors => rw [hkeeps.reports errors houtcome, hfaults]

end Document

end GraphQLEngine
