/-
Documents without spreads.

`Document.inlined` puts an inline fragment in the place of each spread of a
fragment that is defined, with the type condition of the fragment and the
directives of the spread, and drops the spreads of all others.  Fragments are
inlined within each other up to a depth of their number.  In an acyclic
document that is as deep as they go, so the spread of a fragment comes to the
fragment's own selections, inlined (`inlineSpread_of_get?`), and no spread is
left (`spreadFree_inline`).
-/
import GraphQLEngine.Proofs.Spreads

namespace GraphQLEngine

/-! ## Replacing spreads -/

namespace Selection

mutual

/-- A selection with other selections in the place of each spread, however deep. -/
def expandOne (expand : FragmentSpread → List Selection) : Selection → List Selection
  | .field ⟨alias?, name, arguments, directives, selections, location⟩ =>
    [.field ⟨alias?, name, arguments, directives, expandAll expand selections, location⟩]
  | .spread s => expand s
  | .inlineFragment ⟨condition, directives, selections, location⟩ =>
    [.inlineFragment ⟨condition, directives, expandAll expand selections, location⟩]

/-- Selections with other selections in the place of each spread. -/
def expandAll (expand : FragmentSpread → List Selection) : List Selection → List Selection
  | [] => []
  | s :: rest => s.expandOne expand ++ expandAll expand rest

end

/-- Nothing is spread within selections. -/
def SpreadFree (ss : List Selection) : Prop :=
  ∀ name, ¬ Spreads name ss

variable {expand expand' : FragmentSpread → List Selection} {name : Name} {ss ts : List Selection}

theorem expandAll_append (expand : FragmentSpread → List Selection) (ts : List Selection) :
    ∀ ss, expandAll expand (ss ++ ts) = expandAll expand ss ++ expandAll expand ts
  | [] => rfl
  | s :: rest => by
      rw [List.cons_append, expandAll, expandAll, expandAll_append expand ts rest, List.append_assoc]

theorem expandAll_flatMap {α : Type} (expand : FragmentSpread → List Selection)
    (f : α → List Selection) :
    ∀ l : List α, expandAll expand (l.flatMap f) = l.flatMap (fun a => expandAll expand (f a))
  | [] => rfl
  | a :: rest => by
      rw [List.flatMap_cons, List.flatMap_cons, expandAll_append, expandAll_flatMap expand f rest]

mutual

theorem expandOne_congr : ∀ (s : Selection),
    (∀ spread : FragmentSpread, Spreads spread.fragment [s] → expand spread = expand' spread) →
    s.expandOne expand = s.expandOne expand'
  | .field ⟨_, _, _, _, selections, _⟩, h => by
      rw [expandOne, expandOne, expandAll_congr selections fun spread hs => h spread (.field hs)]
  | .spread s, h => h s (.spread rfl)
  | .inlineFragment ⟨_, _, selections, _⟩, h => by
      rw [expandOne, expandOne, expandAll_congr selections fun spread hs => h spread (.inline hs)]

/-- Only what is put in the place of spreads that occur matters. -/
theorem expandAll_congr : ∀ (ss : List Selection),
    (∀ spread : FragmentSpread, Spreads spread.fragment ss → expand spread = expand' spread) →
    expandAll expand ss = expandAll expand' ss
  | [], _ => rfl
  | s :: rest, h => by
      have hfirst := expandOne_congr s fun spread hs => h spread (hs.of_mem List.mem_cons_self)
      have hrest := expandAll_congr rest fun spread hs => h spread (.later hs)
      rw [expandAll, expandAll, hfirst, hrest]

end

/-! ## Freedom of spreads -/

theorem spreadFree_nil : SpreadFree [] :=
  fun _ h => nomatch h

theorem SpreadFree.not_reaches {fragments : OrderedMap Fragment} (h : SpreadFree ss) :
    ¬ Reaches fragments name ss := by
  intro hreach
  cases hreach with
  | spreads hspreads => exact h _ hspreads
  | through hspreads _ _ => exact h _ hspreads

theorem SpreadFree.append (hss : SpreadFree ss) (hts : SpreadFree ts) : SpreadFree (ss ++ ts) := by
  intro name
  induction ss with
  | nil => exact hts name
  | cons s rest ih =>
      intro h
      cases h with
      | spread heq => exact hss name (.spread heq)
      | field h => exact hss name (.field h)
      | inline h => exact hss name (.inline h)
      | later h => exact ih (fun other hother => hss other (.later hother)) h

theorem spreadFree_flatMap {α : Type} {f : α → List Selection} :
    ∀ {l : List α}, (∀ a ∈ l, SpreadFree (f a)) → SpreadFree (l.flatMap f)
  | [], _ => spreadFree_nil
  | _ :: _, h => by
      obtain ⟨hfirst, hrest⟩ := List.forall_mem_cons.mp h
      exact hfirst.append (spreadFree_flatMap hrest)

mutual

theorem spreadFree_expandOne (hexpand : ∀ spread, SpreadFree (expand spread)) :
    ∀ s : Selection, SpreadFree (s.expandOne expand)
  | .field ⟨_, _, _, _, selections, _⟩ => by
      intro name h
      cases h with
      | field h => exact spreadFree_expandAll hexpand selections name h
      | later h => exact spreadFree_nil name h
  | .spread s => hexpand s
  | .inlineFragment ⟨_, _, selections, _⟩ => by
      intro name h
      cases h with
      | inline h => exact spreadFree_expandAll hexpand selections name h
      | later h => exact spreadFree_nil name h

/-- No spread is left if none is put in the place of another. -/
theorem spreadFree_expandAll (hexpand : ∀ spread, SpreadFree (expand spread)) :
    ∀ ss : List Selection, SpreadFree (expandAll expand ss)
  | [] => spreadFree_nil
  | s :: rest => (spreadFree_expandOne hexpand s).append (spreadFree_expandAll hexpand rest)

end

end Selection

/-! ## Inlining fragments -/

/-- The inline fragment that says what a spread of a fragment says, with the given selections. -/
def FragmentSpread.inlineFragment (spread : FragmentSpread) (fragment : Fragment)
    (selections : List Selection) : Selection :=
  .inlineFragment ⟨some fragment.typeCondition, spread.directives, selections, spread.location⟩

/-- What a spread comes to, with fragments inlined within each other up to a depth. -/
def FragmentSpread.inlinedWithin (fragments : OrderedMap Fragment) : Nat → FragmentSpread →
    List Selection
  | 0, _ => []
  | depth + 1, spread =>
    match fragments.get? spread.fragment with
    | none => []
    | some fragment =>
      [spread.inlineFragment fragment
        (Selection.expandAll (inlinedWithin fragments depth) fragment.selections)]

namespace Document

/-- What a spread comes to in a document. -/
def inlineSpread (document : Document) : FragmentSpread → List Selection :=
  FragmentSpread.inlinedWithin document.fragments document.fragments.length

/-- Selections with all fragments of a document inlined. -/
def inline (document : Document) : List Selection → List Selection :=
  Selection.expandAll document.inlineSpread

/-- A field with all fragments of a document inlined in its selections. -/
def inlineField (document : Document) (field : Field) : Field :=
  { field with selections := document.inline field.selections }

def inlineOperation (document : Document) (operation : Operation) : Operation :=
  { operation with selections := document.inline operation.selections }

/-- The document with all its fragments inlined. -/
def inlined (document : Document) : Document where
  operations := document.operations.map document.inlineOperation
  fragments := document.fragments.map fun e =>
    (e.1, { e.2 with selections := document.inline e.2.selections })

end Document

namespace FragmentSpread

variable {fragments : OrderedMap Fragment} {spread : FragmentSpread}

theorem inlinedWithin_of_none (h : fragments.get? spread.fragment = none) (depth : Nat) :
    spread.inlinedWithin fragments depth = [] := by
  cases depth with
  | zero => rfl
  | succ depth => rw [inlinedWithin, h]

theorem spreadFree_inlinedWithin (fragments : OrderedMap Fragment) :
    ∀ (depth : Nat) (spread : FragmentSpread),
      Selection.SpreadFree (spread.inlinedWithin fragments depth)
  | 0, _ => Selection.spreadFree_nil
  | depth + 1, spread => by
      rw [inlinedWithin]
      split
      · exact Selection.spreadFree_nil
      · intro name h
        cases h with
        | inline h =>
            exact Selection.spreadFree_expandAll (spreadFree_inlinedWithin fragments depth) _ name h
        | later h => exact Selection.spreadFree_nil name h

/-- Fragments nest no deeper than there are fragments ahead. -/
theorem inlinedWithin_eq {document : Document} (hacyclic : document.Acyclic) :
    ∀ (depth depth' : Nat) (spread : FragmentSpread),
      Selection.ahead document.fragments (fun _ => 1) [.spread spread] ≤ depth →
      Selection.ahead document.fragments (fun _ => 1) [.spread spread] ≤ depth' →
      spread.inlinedWithin document.fragments depth = spread.inlinedWithin document.fragments depth' := by
  intro depth
  induction depth with
  | zero =>
      intro depth' spread h _
      match hget : document.fragments.get? spread.fragment with
      | none => rw [inlinedWithin_of_none hget, inlinedWithin_of_none hget]
      | some fragment =>
          have hlt := Selection.ahead_spread hacyclic (fun _ => 1) hget
          omega
  | succ depth ih =>
      intro depth' spread h h'
      match hget : document.fragments.get? spread.fragment, depth' with
      | none, _ => rw [inlinedWithin_of_none hget, inlinedWithin_of_none hget]
      | some fragment, 0 =>
          have hlt := Selection.ahead_spread hacyclic (fun _ => 1) hget
          omega
      | some fragment, depth' + 1 =>
          have hlt := Selection.ahead_spread hacyclic (fun _ => 1) hget
          rw [inlinedWithin, inlinedWithin, hget]
          refine congrArg (fun selections => [spread.inlineFragment fragment selections]) ?_
          refine Selection.expandAll_congr _ ?_
          intro other hother
          have hle : Selection.ahead document.fragments (fun _ => 1) [.spread other] ≤
              Selection.ahead document.fragments (fun _ => 1) fragment.selections := by
            refine Selection.ahead_mono _ _ ?_
            intro name hname
            cases hname with
            | spread heq => exact heq ▸ hother
            | later h => cases h
          exact ih depth' other (by omega) (by omega)

end FragmentSpread

namespace Document

variable {document : Document} {spread : FragmentSpread}

theorem inline_cons (document : Document) (s : Selection) (rest : List Selection) :
    document.inline (s :: rest) = document.inline [s] ++ document.inline rest :=
  Selection.expandAll_append document.inlineSpread rest [s]

theorem inline_field (document : Document) (field : Field) :
    document.inline [.field field] = [.field (document.inlineField field)] :=
  rfl

theorem inline_inlineFragment (document : Document) (i : InlineFragment Selection) :
    document.inline [.inlineFragment i] =
      [.inlineFragment { i with selections := document.inline i.selections }] :=
  rfl

theorem inline_spread (document : Document) (spread : FragmentSpread) :
    document.inline [.spread spread] = document.inlineSpread spread :=
  List.append_nil _

/-- A spread of no fragment comes to nothing. -/
theorem inlineSpread_of_none (h : document.fragments.get? spread.fragment = none) :
    document.inlineSpread spread = [] :=
  FragmentSpread.inlinedWithin_of_none h _

/-- A spread comes to an inline fragment with the selections of the fragment, inlined. -/
theorem inlineSpread_of_get? (hacyclic : document.Acyclic) {fragment : Fragment}
    (h : document.fragments.get? spread.fragment = some fragment) :
    document.inlineSpread spread =
      [spread.inlineFragment fragment (document.inline fragment.selections)] := by
  have hcount : Selection.ahead document.fragments (fun _ => 1) [.spread spread] ≤
      document.fragments.length := by
    have htotal : ∀ fragments : OrderedMap Fragment,
        Selection.total (fun _ => 1) fragments = fragments.length := by
      intro fragments
      induction fragments with
      | nil => rfl
      | cons e rest ih =>
          rw [Selection.total, List.foldr_cons, List.length_cons, Nat.add_comm]
          exact congrArg (· + 1) ih
    exact Nat.le_trans (Selection.ahead_le_total _ _ _) (Nat.le_of_eq (htotal _))
  have hmore : document.inlineSpread spread =
      spread.inlinedWithin document.fragments (document.fragments.length + 1) :=
    FragmentSpread.inlinedWithin_eq hacyclic _ _ spread hcount (Nat.le_succ_of_le hcount)
  rw [hmore, FragmentSpread.inlinedWithin, h]
  rfl

theorem spreadFree_inline (document : Document) (ss : List Selection) :
    Selection.SpreadFree (document.inline ss) :=
  Selection.spreadFree_expandAll (FragmentSpread.spreadFree_inlinedWithin _ _) ss

end Document

end GraphQLEngine
