/-
References to types, printed and read.

`Lexes` says which texts consist of which tokens.  The text of a type reference
consists of `TypeRef.kinds` (`TypeRef.lexes_text`), and the reader for types
makes its node of these, whatever follows (`Reader.read_typeRefWithin`).  So a
query that declares a variable with the text of a type declares it with that
type, and the text of a type determines it.
-/
import GraphQLEngine.Execution.Run
import GraphQLEngine.Proofs.NameSyntax
import GraphQLEngine.Proofs.TokenRuns

namespace GraphQLEngine

/-! ## Texts by their tokens -/

/-- No name goes on with the first character of a text. -/
def EndsName (text : List Char) : Prop :=
  text.takeWhile Name.isContinue = []

/-- A mark is not blank, starts no comment and is no part of a name. -/
theorem Token.marks_separate {c : Char} (hc : c ∈ marks) :
    isBlank c = false ∧ c ≠ '#' ∧ Name.isContinue c = false := by
  have hall : marks.all (fun m => !isBlank m && (m != '#' && !Name.isContinue m)) = true := by decide
  simpa using List.all_eq_true.1 hall c hc

theorem endsName_mark {c : Char} (hc : c ∈ Token.marks) (text : List Char) : EndsName (c :: text) :=
  List.takeWhile_cons_of_neg (by simp [Token.marks_separate hc])

/-- A text consists of tokens. -/
inductive Lexes : List Char → List TokenKind → Prop
  | nil : Lexes [] [.endOfText]
  | blank {c : Char} {text : List Char} {kinds : List TokenKind} (hc : Token.isBlank c) :
      Lexes text kinds → Lexes (c :: text) kinds
  | mark {c : Char} {text : List Char} {kinds : List TokenKind} (hc : c ∈ Token.marks) :
      Lexes text kinds → Lexes (c :: text) (.mark c :: kinds)
  | name {name : Name} {text : List Char} {kinds : List TokenKind} (hname : name.isValid)
      (hends : EndsName text) : Lexes text kinds → Lexes (name.toList ++ text) (.name name :: kinds)

namespace Token

/-- A character that starts a name starts nothing else. -/
theorem isStart_separate {c : Char} (h : Name.isStart c = true) :
    isBlank c = false ∧ c ≠ '#' ∧ c ≠ ',' ∧ c ∉ marks := by
  refine ⟨?_, ?_, ?_, ?_⟩
  · rw [Bool.eq_false_iff]
    intro hblank
    simp only [isBlank, Bool.or_eq_true, beq_iff_eq] at hblank
    rcases hblank with (((rfl | rfl) | rfl) | rfl) | rfl <;> cases h
  · rintro rfl
    cases h
  · rintro rfl
    cases h
  · intro hmem
    have hcontinue : Name.isContinue c = true := by rw [Name.isContinue, h, Bool.true_or]
    rw [(marks_separate hmem).2.2] at hcontinue
    cases hcontinue

theorem readLexeme_mark {c : Char} (hc : c ∈ marks) (rest : List Char) :
    readLexeme c rest = (.token (.mark c), rest) := by
  obtain ⟨hblank, hcomment, -⟩ := marks_separate hc
  rw [readLexeme, if_neg (by simp [hblank]), if_neg (by simpa using hcomment),
    if_pos (List.contains_iff_mem.2 hc)]

theorem readLexeme_name {c : Char} {rest text : List Char} (hstart : Name.isStart c = true)
    (hrest : ∀ c ∈ rest, Name.isContinue c = true) (hends : EndsName text) :
    readLexeme c (rest ++ text) = (.token (.name (String.ofList (c :: rest))), text) := by
  have ⟨hblank, hcomment, hcomma, hmark⟩ := isStart_separate hstart
  have htake : (rest ++ text).takeWhile Name.isContinue = rest := by
    rw [List.takeWhile_append_of_pos hrest, hends, List.append_nil]
  have hdrop : (rest ++ text).dropWhile Name.isContinue = text := by
    have hsplit := List.takeWhile_append_dropWhile (p := Name.isContinue) (l := rest ++ text)
    rw [htake] at hsplit
    exact List.append_cancel_left hsplit
  rw [readLexeme, if_neg (by simp [hblank]), if_neg (by simpa using hcomment),
    if_neg (mt List.contains_iff_mem.1 hmark), if_neg (by simpa using hcomma), if_pos hstart, htake,
    hdrop]

/-- What a scan finds in a text, but for ignored text. -/
def found (fuel offset : Nat) (text : List Char) : List Lexeme :=
  ((scan fuel offset text).map Piece.kind).filter Lexeme.isSignificant

theorem found_cons (fuel offset : Nat) (c : Char) (rest : List Char) :
    ∃ next, found (fuel + 1) offset (c :: rest) =
      [(readLexeme c rest).1].filter Lexeme.isSignificant ++ found fuel next (readLexeme c rest).2 := by
  obtain ⟨text, -, -, hscan⟩ := scan_cons fuel offset c rest
  refine ⟨offset + byteLength text, ?_⟩
  rw [found, hscan, List.map_cons]
  exact List.filter_append [(readLexeme c rest).1] _

/-- The scan of a text finds the tokens that the text consists of. -/
theorem found_of_lexes {text : List Char} {kinds : List TokenKind} (h : Lexes text kinds) :
    ∀ fuel offset, text.length < fuel → found fuel offset text = kinds.map Lexeme.token := by
  induction h with
  | nil =>
    rintro (_ | fuel) offset hfuel
    · cases hfuel
    · rfl
  | @blank c text kinds hc _ ih =>
    rintro (_ | fuel) offset hfuel
    · cases hfuel
    · obtain ⟨next, hfound⟩ := found_cons fuel offset c text
      have hlexeme : readLexeme c text = (.ignored .blank, text) := by rw [readLexeme, if_pos hc]
      rw [hfound, hlexeme]
      exact ih fuel next (Nat.lt_of_succ_lt_succ hfuel)
  | @mark c text kinds hc _ ih =>
    rintro (_ | fuel) offset hfuel
    · cases hfuel
    · obtain ⟨next, hfound⟩ := found_cons fuel offset c text
      rw [hfound, readLexeme_mark hc, ih fuel next (Nat.lt_of_succ_lt_succ hfuel)]
      rfl
  | @name name text kinds hname hends _ ih =>
    obtain ⟨c, rest, hlist, hstart, hrest⟩ := Name.isValid_iff_chars.1 hname
    rw [hlist, List.cons_append]
    rintro (_ | fuel) offset hfuel
    · cases hfuel
    · obtain ⟨next, hfound⟩ := found_cons fuel offset c (rest ++ text)
      have hlength : text.length < fuel := by
        rw [List.length_cons, List.length_append] at hfuel
        omega
      rw [hfound, readLexeme_name hstart hrest hends, ih fuel next hlength, ← hlist,
        String.ofList_toList]
      rfl

end Token

theorem Tokens.ofSource_of_lexes {source : String} {kinds : List TokenKind}
    (h : Lexes source.toList kinds) :
    (ofSource source).tokens.map Token.kind = kinds ∧ (ofSource source).invalid = [] := by
  have hfound := Token.found_of_lexes h (source.toList.length + 1) 0 (Nat.lt_succ_self _)
  have hvalid : ∀ piece ∈ Token.scan (source.toList.length + 1) 0 source.toList,
      piece.kind ≠ .invalid := by
    intro piece hpiece hkind
    have hsignificant : piece.kind.isSignificant = true := by rw [hkind]; rfl
    have hmem : piece.kind ∈ Token.found (source.toList.length + 1) 0 source.toList :=
      List.mem_filter.2 ⟨List.mem_map_of_mem hpiece, hsignificant⟩
    rw [hfound, hkind] at hmem
    obtain ⟨k, -, hk⟩ := List.mem_map.1 hmem
    cases hk
  constructor
  · have htokens := congrArg (List.map Piece.kind) (Token.map_piece_ofPieces [] hvalid)
    rw [List.map_map] at htokens
    refine (List.map_inj_right fun _ _ => Lexeme.token.inj).1 ?_
    rw [List.map_map, ← hfound, Token.found, List.filter_map]
    exact htokens
  · refine List.map_eq_nil_iff.2 (List.filter_eq_nil_iff.2 fun piece hpiece hkind => ?_)
    exact hvalid piece hpiece (beq_iff_eq.1 hkind)

/-! ## The text of a type -/

namespace TypeRef

/-- The tokens of a type's text. -/
def kinds : TypeRef → List TokenKind
  | .named name => [.name name]
  | .nonNullNamed name => [.name name, .mark '!']
  | .list item => .mark '[' :: item.kinds ++ [.mark ']']
  | .nonNullList item => .mark '[' :: item.kinds ++ [.mark ']', .mark '!']

theorem lexes_text (t : TypeRef) (hname : t.innerName.isValid) {text : List Char}
    {more : List TokenKind} (hends : EndsName text) (h : Lexes text more) :
    Lexes (t.text.toList ++ text) (t.kinds ++ more) := by
  induction t generalizing text more with
  | named name => exact .name hname hends h
  | nonNullNamed name =>
    have hmark : Lexes ('!' :: text) (.mark '!' :: more) := .mark (by decide) h
    rw [TypeRef.text, String.toList_append, List.append_assoc]
    exact .name hname rfl hmark
  | list item ih =>
    have hclose : Lexes (']' :: text) (.mark ']' :: more) := .mark (by decide) h
    have hitem := ih hname (endsName_mark (by decide) text) hclose
    simp only [TypeRef.text, String.toList_append, kinds, List.cons_append, List.append_assoc]
    exact .mark (by decide) hitem
  | nonNullList item ih =>
    have hmark : Lexes ('!' :: text) (.mark '!' :: more) := .mark (by decide) h
    have hclose : Lexes (']' :: '!' :: text) (.mark ']' :: .mark '!' :: more) := .mark (by decide) hmark
    have hitem := ih hname (endsName_mark (by decide) _) hclose
    simp only [TypeRef.text, String.toList_append, kinds, List.cons_append, List.append_assoc]
    exact .mark (by decide) hitem

/-- The syntax tree of a type's text. -/
def node : TypeRef → TypeNode
  | .named name => .named (some name)
  | .nonNullNamed name => .nonNull (some (.named (some name)))
  | .list item => .list (some item.node)
  | .nonNullList item => .nonNull (some (.list (some item.node)))

theorem convert_node (t : TypeRef) : t.node.convert = some t := by
  induction t with
  | named name => rfl
  | nonNullNamed name => rfl
  | list item ih => rw [node, TypeNode.convert, ih]; rfl
  | nonNullList item ih => rw [node, TypeNode.convert, TypeNode.convert, ih]; rfl

end TypeRef

/-! ## Reading tokens of known kinds -/

namespace Reader

variable {α β : Type}

theorem read_bind (r : Reader α) (next : α → Reader β) (tokens : List Token) :
    (r >>= next).read tokens = match r.read tokens with
      | .ok (a, rest) => (next a).read rest
      | .error offset => .error offset := rfl

theorem read_pure (a : α) (tokens : List Token) :
    (Pure.pure a : Reader α).read tokens = .ok (a, tokens) := rfl

theorem read_peek (token : Token) (rest : List Token) :
    peek.read (token :: rest) = .ok (token.kind, token :: rest) := rfl

variable {token : Token} {rest : List Token} {k : TokenKind} {c : Char}

theorem read_skip (h : token.kind ≠ .endOfText) : skip.read (token :: rest) = .ok ((), rest) := by
  simp only [skip, if_neg h]

theorem read_skip_mark (h : token.kind = .mark c) : skip.read (token :: rest) = .ok ((), rest) :=
  read_skip (h ▸ TokenKind.noConfusion)

theorem read_skip_name {n : Name} (h : token.kind = .name n) :
    skip.read (token :: rest) = .ok ((), rest) :=
  read_skip (h ▸ TokenKind.noConfusion)

theorem read_accept (h : token.kind = .mark c) :
    (accept (.mark c)).read (token :: rest) = .ok (true, rest) := by
  simp only [accept, read_bind, read_peek, h, if_true, read_skip_mark h, read_pure]

theorem read_accept_of_ne (h : token.kind ≠ k) :
    (accept k).read (token :: rest) = .ok (false, token :: rest) := by
  simp only [accept, read_bind, read_peek, h, if_false, read_pure]

theorem read_expect (h : token.kind = .mark c) :
    (expect (.mark c)).read (token :: rest) = .ok ((), rest) := by
  simp only [expect, read_bind, read_peek, h, if_true, read_skip_mark h]

theorem read_name {n : Name} (h : token.kind = .name n) : name.read (token :: rest) = .ok (n, rest) := by
  simp only [name, read_bind, read_peek, h, read_skip_name h, read_pure]

theorem read_between?_of_ne {opening close : Char} (r : Reader α) (h : token.kind ≠ .mark opening) :
    (between? opening close r).read (token :: rest) = .ok ([], token :: rest) := by
  simp only [between?, read_bind, read_peek, h, if_false, read_pure]

/-- One value between two marks. -/
theorem read_between₁_single {opening close : Char} {r : Reader α} {a : α} {member : List Token}
    {first last : Token} (hfirst : first.kind = .mark opening)
    (hmember : r.read member = .ok (a, last :: rest)) (hlast : last.kind = .mark close) :
    (between₁ opening close r).read (first :: member) = .ok ([a], rest) := by
  have hend : (untilMark close r (last :: rest).length).read (last :: rest) = .ok ([], rest) := by
    simp only [List.length_cons, untilMark, read_bind, read_accept hlast, if_true, read_pure]
  simp only [between₁, remaining, looking, read_bind, read_expect hfirst, hmember, hend, read_pure]

theorem read_between? {opening close : Char} (r : Reader α) (h : token.kind = .mark opening) :
    (between? opening close r).read (token :: rest) =
      (between₁ opening close r).read (token :: rest) := by
  simp only [between?, read_bind, read_peek, h, if_true]

theorem read_after_of_ne {mark : Char} (r : Reader α) (h : token.kind ≠ .mark mark) (fuel : Nat) :
    (after mark r fuel).read (token :: rest) = .ok ([], token :: rest) := by
  cases fuel with
  | zero => rfl
  | succ fuel => simp [after, read_bind, read_accept_of_ne h, read_pure]

theorem read_directives_of_ne (value : Reader ValueNode) (h : token.kind ≠ .mark '@') :
    (directives value).read (token :: rest) = .ok ([], token :: rest) := by
  show (after '@' (directive value) (token :: rest).length).read (token :: rest) = _
  exact read_after_of_ne _ h _

/-- A nullable type ends before a token other than an exclamation mark. -/
theorem read_withMark_of_ne (type : TypeNode) (h : token.kind ≠ .mark '!') :
    (withMark type).read (token :: rest) = .ok (type, token :: rest) := by
  simp [withMark, read_bind, read_accept_of_ne h, read_pure]

theorem read_withMark (type : TypeNode) (h : token.kind = .mark '!') :
    (withMark type).read (token :: rest) = .ok (.nonNull (some type), rest) := by
  simp [withMark, read_bind, read_accept h, read_pure]

theorem read_typeRefOf_name (item : Reader TypeNode) {n : Name} (h : token.kind = .name n) :
    (typeRefOf item).read (token :: rest) = (withMark (.named (some n))).read rest := by
  simp only [typeRefOf, read_bind, read_peek, h, read_skip_name h]

/-- The reader makes the node of a type of the type's tokens, up to a token that no type goes on
with. -/
def ReadsType (r : Reader TypeNode) (t : TypeRef) : Prop :=
  ∀ tokens, tokens.map Token.kind = t.kinds → ∀ next, next.kind ≠ .mark '!' → ∀ rest,
    r.read (tokens ++ next :: rest) = .ok (t.node, next :: rest)

theorem read_typeRefOf_list {item : Reader TypeNode} {t : TypeRef} (hitem : ReadsType item t)
    {tokens : List Token} (htokens : tokens.map Token.kind = (TypeRef.list t).kinds)
    (rest : List Token) :
    (typeRefOf item).read (tokens ++ rest) = (withMark (.list (some t.node))).read rest := by
  obtain ⟨first, inner, rfl, hopen, hinner⟩ := List.map_eq_cons_iff.1 htokens
  obtain ⟨tokens, last, rfl, hkinds, hlast⟩ := List.map_eq_append_iff.1 hinner
  obtain ⟨close, rfl, hclose⟩ := List.map_eq_singleton_iff.1 hlast
  have hother : close.kind ≠ .mark '!' := by
    rw [hclose]
    decide
  rw [List.cons_append, List.append_assoc, List.singleton_append]
  simp only [typeRefOf, read_bind, read_peek, hopen, read_skip_mark hopen,
    hitem tokens hkinds close hother rest, read_expect hclose]

theorem exists_typeRefOf (levels : Nat) : ∃ item, typeRefWithin levels = typeRefOf item := by
  cases levels with
  | zero => exact ⟨_, rfl⟩
  | succ levels => exact ⟨_, rfl⟩

/-- Types with so many lists at most are read. -/
theorem readsType_typeRefWithin {t : TypeRef} {levels : Nat} (h : t.listDepth ≤ levels) :
    ReadsType (typeRefWithin levels) t := by
  -- the items of a list are read with one level less
  induction t generalizing levels with
  | named n =>
    intro tokens htokens next hnext rest
    obtain ⟨token, rfl, hname⟩ := List.map_eq_singleton_iff.1 htokens
    obtain ⟨item, hitem⟩ := exists_typeRefOf levels
    rw [hitem, List.singleton_append, read_typeRefOf_name item hname]
    exact read_withMark_of_ne _ hnext
  | nonNullNamed n =>
    intro tokens htokens next hnext rest
    obtain ⟨token, marks, rfl, hname, hmarks⟩ := List.map_eq_cons_iff.1 htokens
    obtain ⟨mark, rfl, hmark⟩ := List.map_eq_singleton_iff.1 hmarks
    obtain ⟨item, hitem⟩ := exists_typeRefOf levels
    rw [hitem, List.cons_append, read_typeRefOf_name item hname]
    exact read_withMark _ hmark
  | list t ih =>
    intro tokens htokens next hnext rest
    obtain ⟨levels, rfl⟩ := Nat.exists_eq_add_one.2 (Nat.lt_of_lt_of_le (Nat.succ_pos _) h)
    have hitem := ih (Nat.le_of_succ_le_succ h)
    exact (read_typeRefOf_list hitem htokens (next :: rest)).trans (read_withMark_of_ne _ hnext)
  | nonNullList t ih =>
    intro tokens htokens next hnext rest
    obtain ⟨levels, rfl⟩ := Nat.exists_eq_add_one.2 (Nat.lt_of_lt_of_le (Nat.succ_pos _) h)
    have hitem := ih (Nat.le_of_succ_le_succ h)
    have hkinds : (TypeRef.nonNullList t).kinds = (TypeRef.list t).kinds ++ [.mark '!'] := by
      simp [TypeRef.kinds]
    rw [hkinds] at htokens
    obtain ⟨tokens, last, rfl, hlist, hlast⟩ := List.map_eq_append_iff.1 htokens
    obtain ⟨mark, rfl, hmark⟩ := List.map_eq_singleton_iff.1 hlast
    rw [List.append_assoc, List.singleton_append]
    exact (read_typeRefOf_list hitem hlist (mark :: next :: rest)).trans (read_withMark _ hmark)

variable {tokens : List Token}

/-- The tokens `$name: type` before another one. -/
theorem read_variableDefinition {n : Name} {t : TypeRef} (ht : t.listDepth ≤ nestingLimit)
    {dollar variableName colon next : Token} (hdollar : dollar.kind = .mark '$')
    (hname : variableName.kind = .name n) (hcolon : colon.kind = .mark ':')
    (htokens : tokens.map Token.kind = t.kinds) (hnext : next.kind = .mark ')') (rest : List Token) :
    ∃ text, variableDefinition.read (dollar :: variableName :: colon :: (tokens ++ next :: rest)) =
      .ok (⟨text, some n, some t.node, none⟩, next :: rest) := by
  have hmark : next.kind ≠ .mark '!' := by rw [hnext]; decide
  have hequals : next.kind ≠ .mark '=' := by rw [hnext]; decide
  have hat : next.kind ≠ .mark '@' := by rw [hnext]; decide
  have htype := readsType_typeRefWithin ht tokens htokens next hmark rest
  refine ⟨_, read_node_eq_ok.2 ⟨fun text => ⟨text, some n, some t.node, none⟩, ?_, rfl⟩⟩
  simp [typeRef, constantDirectives, read_bind, read_expect hdollar, read_name hname,
    read_expect hcolon, htype, read_accept_of_ne hequals, read_pure, read_directives_of_ne _ hat]

/-- A name alone is read as a field. -/
theorem read_selection (parts : SelectionParts) {n : Name} {fieldName close : Token}
    (hname : fieldName.kind = .name n) (hclose : close.kind = .mark '\x7d') (rest : List Token) :
    ∃ text, (selection parts).read (fieldName :: close :: rest) =
      .ok (.field ⟨text, none, some n, [], [], none⟩, close :: rest) := by
  have hparenthesis : close.kind ≠ .mark '(' := by rw [hclose]; decide
  have hat : close.kind ≠ .mark '@' := by rw [hclose]; decide
  have hbrace : close.kind ≠ .mark '\x7b' := by rw [hclose]; decide
  have halias : alias?.read (fieldName :: close :: rest) = .ok (none, fieldName :: close :: rest) := by
    have hcolon : (if close.afterComma then none else some close.kind) ≠ some (.mark ':') := by
      rw [hclose]
      split <;> simp
    simp only [alias?, peekSecond, looking, read_bind, hcolon, if_false, read_pure]
  have hselection : (selection parts).read (fieldName :: close :: rest) =
      (field parts).read (fieldName :: close :: rest) := by
    simp only [selection, read_bind, read_peek, hname]
  rw [hselection]
  refine ⟨_, read_node_eq_ok.2 ⟨fun text => .field ⟨text, none, some n, [], [], none⟩, ?_, rfl⟩⟩
  simp [arguments, read_bind, read_peek, halias, read_name hname,
    read_between?_of_ne _ hparenthesis, read_directives_of_ne _ hat, hbrace, read_pure]

/-- The tokens of a selection set with one field. -/
theorem read_selections {n : Name} {opening fieldName close : Token}
    (hopening : opening.kind = .mark '\x7b') (hname : fieldName.kind = .name n)
    (hclose : close.kind = .mark '\x7d') (rest : List Token) :
    ∃ text, selections.read (opening :: fieldName :: close :: rest) =
      .ok ([.field ⟨text, none, some n, [], [], none⟩], rest) := by
  obtain ⟨text, hselection⟩ := read_selection _ hname hclose rest
  exact ⟨text, read_between₁_single hopening hselection hclose⟩

end Reader

/-! ## A query with one variable -/

/-- The tokens of a query that declares one variable and selects one field. -/
def queryKinds (operation? : Option Name) (variableName : Name) (type : List TokenKind)
    (field : Name) : List TokenKind :=
  .name "query" :: operation?.toList.map .name ++
    (.mark '(' :: .mark '$' :: .name variableName :: .mark ':' :: type ++
      [.mark ')', .mark '\x7b', .name field, .mark '\x7d', .endOfText])

/-- The syntax tree of such a query, given the texts of its operation, its variable and its field. -/
def queryNode (operation? : Option Name) (variableName : Name) (t : TypeRef) (field : Name)
    (text variableText fieldText : NodeText) : OperationNode :=
  ⟨text, some "query", operation?, [⟨variableText, some variableName, some t.node, none⟩], [],
    some [.field ⟨fieldText, none, some field, [], [], none⟩]⟩

/-- The text of a query that declares one variable, whose type is given as text, and selects one
field. -/
def queryText (operation? : Option Name) (variableName : Name) (type : String) (field : Name) :
    String :=
  "query " ++ operation?.getD "" ++ "($" ++ variableName ++ ": " ++ type ++ ") \x7b " ++ field ++ " \x7d"

namespace Reader

theorem read_name? {name? : Option Name} {c : Char} {more : List TokenKind} {tokens : List Token}
    (htokens : tokens.map Token.kind = name?.toList.map .name ++ .mark c :: more) :
    ∃ rest, Reader.name?.read tokens = .ok (name?, rest) ∧ rest.map Token.kind = .mark c :: more := by
  cases name? with
  | none =>
    obtain ⟨token, rest, rfl, hkind, -⟩ := List.map_eq_cons_iff.1 htokens
    refine ⟨token :: rest, ?_, htokens⟩
    simp only [Reader.name?, read_bind, read_peek, hkind, read_pure]
  | some n =>
    obtain ⟨token, rest, rfl, hkind, hrest⟩ := List.map_eq_cons_iff.1 htokens
    refine ⟨rest, ?_, hrest⟩
    simp only [Reader.name?, read_bind, read_peek, hkind, read_skip_name hkind, read_pure]

/-- The query after its keyword. -/
theorem read_operation_of_query {operation? : Option Name} {variableName field : Name} {t : TypeRef}
    (ht : t.listDepth ≤ nestingLimit) {tokens : List Token}
    (htokens : tokens.map Token.kind = (queryKinds operation? variableName t.kinds field).tail) :
    ∃ variableText fieldText last, last.kind = .endOfText ∧
      (operation "query").read tokens = .ok (fun text =>
        .operation (queryNode operation? variableName t field text variableText fieldText),
        [last]) := by
  obtain ⟨rest, hname, hrest⟩ := read_name? htokens
  obtain ⟨first, rest, rfl, hfirst, hrest⟩ := List.map_eq_cons_iff.1 hrest
  obtain ⟨dollar, rest, rfl, hdollar, hrest⟩ := List.map_eq_cons_iff.1 hrest
  obtain ⟨variableToken, rest, rfl, hvariable, hrest⟩ := List.map_eq_cons_iff.1 hrest
  obtain ⟨colon, rest, rfl, hcolon, hrest⟩ := List.map_eq_cons_iff.1 hrest
  obtain ⟨type, rest, rfl, htype, hrest⟩ := List.map_eq_append_iff.1 hrest
  obtain ⟨close, rest, rfl, hclose, hrest⟩ := List.map_eq_cons_iff.1 hrest
  obtain ⟨opening, rest, rfl, hopening, hrest⟩ := List.map_eq_cons_iff.1 hrest
  obtain ⟨fieldToken, rest, rfl, hfield, hrest⟩ := List.map_eq_cons_iff.1 hrest
  obtain ⟨closing, rest, rfl, hclosing, hrest⟩ := List.map_eq_cons_iff.1 hrest
  obtain ⟨last, rfl, hlast⟩ := List.map_eq_singleton_iff.1 hrest
  have hat : opening.kind ≠ .mark '@' := by rw [hopening]; decide
  obtain ⟨variableText, hdefinition⟩ := read_variableDefinition ht hdollar hvariable hcolon htype
    hclose [opening, fieldToken, closing, last]
  have hdefinitions := read_between₁_single hfirst hdefinition hclose
  obtain ⟨fieldText, hselections⟩ := read_selections hopening hfield hclosing [last]
  refine ⟨variableText, fieldText, last, hlast, ?_⟩
  simp only [operation, read_bind, hname, read_between? _ hfirst, hdefinitions,
    read_directives_of_ne _ hat, hselections, read_pure, queryNode]

/-- The query as a whole text. -/
theorem read_definitions_of_query {operation? : Option Name} {variableName field : Name} {t : TypeRef}
    (ht : t.listDepth ≤ nestingLimit) {tokens : List Token}
    (htokens : tokens.map Token.kind = queryKinds operation? variableName t.kinds field) :
    ∃ text variableText fieldText rest, definitions.read tokens =
      .ok ([.operation (queryNode operation? variableName t field text variableText fieldText)],
        rest) := by
  obtain ⟨token, rest, rfl, hkeyword, hrest⟩ := List.map_eq_cons_iff.1 htokens
  obtain ⟨variableText, fieldText, last, hlast, hread⟩ := read_operation_of_query ht hrest
  obtain ⟨text, hdefinition⟩ : ∃ text, definition.read (token :: rest) = .ok (.operation
      (queryNode operation? variableName t field text variableText fieldText), [last]) := by
    refine ⟨_, read_node_eq_ok.2 ⟨fun text => .operation
      (queryNode operation? variableName t field text variableText fieldText), ?_, rfl⟩⟩
    simp only [read_bind, read_peek, hkeyword, true_or, if_true, read_skip_name hkeyword, hread]
  have hend : (definitionsUntilEnd [last].length).read [last] = .ok ([], [last]) := by
    simp only [List.length_singleton, definitionsUntilEnd, read_bind, read_peek, hlast, if_true,
      read_pure]
  refine ⟨text, variableText, fieldText, [last], ?_⟩
  simp only [definitions, remaining, looking, read_bind, hdefinition, hend, read_pure]

end Reader

/-! ## The text of the query -/

theorem lexes_queryText {operation? : Option Name} {variableName field : Name} {t : TypeRef}
    (hoperation : ∀ name, operation? = some name → name.isValid) (hvariable : variableName.isValid)
    (ht : t.innerName.isValid) (hfield : field.isValid) :
    Lexes (queryText operation? variableName t.text field).toList
      (queryKinds operation? variableName t.kinds field) := by
  have hquery : "query ".toList = "query".toList ++ [' '] := by decide
  have hopen : "($".toList = ['(', '$'] := by decide
  have hcolon : ": ".toList = [':', ' '] := by decide
  have hclose : ") \x7b ".toList = [')', ' ', '\x7b', ' '] := by decide
  have hend : " \x7d".toList = [' ', '\x7d'] := by decide
  have hbrace : Lexes [' ', '\x7d'] [.mark '\x7d', .endOfText] :=
    .blank (by decide) (.mark (by decide) .nil)
  have hselections : Lexes (')' :: ' ' :: '\x7b' :: ' ' :: (field.toList ++ [' ', '\x7d']))
      [.mark ')', .mark '\x7b', .name field, .mark '\x7d', .endOfText] :=
    .mark (by decide) (.blank (by decide) (.mark (by decide) (.blank (by decide)
      (.name hfield rfl hbrace))))
  have htype := t.lexes_text ht (endsName_mark (by decide) _) hselections
  have hdefinition : Lexes
      ('(' :: '$' :: (variableName.toList ++ ':' :: ' ' :: (t.text.toList ++
        ')' :: ' ' :: '\x7b' :: ' ' :: (field.toList ++ [' ', '\x7d']))))
      (.mark '(' :: .mark '$' :: .name variableName :: .mark ':' :: t.kinds ++
        [.mark ')', .mark '\x7b', .name field, .mark '\x7d', .endOfText]) :=
    .mark (by decide) (.mark (by decide) (.name hvariable (endsName_mark (by decide) _)
      (.mark (by decide) (.blank (by decide) htype))))
  simp only [queryText, String.toList_append, hquery, hopen, hcolon, hclose, hend, List.append_assoc]
  refine .name (by decide) rfl (.blank (by decide) ?_)
  cases operation? with
  | none => exact hdefinition
  | some name => exact .name (hoperation name rfl) (endsName_mark (by decide) _) hdefinition

/-! ## Parsing the query -/

/-- A document of one query, which declares one variable. -/
structure Document.DeclaresOnly (document : Document) (variableName : Name) (t : TypeRef) : Prop where
  operations : ∃ operation d, document.operations = [operation] ∧ operation.kind = .query ∧
    operation.variableDefinitions = [d] ∧ d.name = variableName ∧ d.type = t
  fragments : document.fragments = []

theorem convert_queryNode (index : LineIndex) (operation? : Option Name) (variableName : Name)
    (t : TypeRef) (field : Name) (text variableText fieldText : NodeText) :
    ∃ operation, (queryNode operation? variableName t field text variableText fieldText).convert
        index = some operation ∧ operation.kind = .query ∧
      operation.variableDefinitions = [⟨variableName, t, none, some (variableText.location index)⟩] := by
  have hvariable : VariableDefinitionNode.convert index
      ⟨variableText, some variableName, some t.node, none⟩ =
        some ⟨variableName, t, none, some (variableText.location index)⟩ := by
    simp [VariableDefinitionNode.convert, convertOptional, TypeRef.convert_node]
  refine ⟨_, rfl, rfl, ?_⟩
  show [_].filterMap (VariableDefinitionNode.convert index) = _
  simp only [List.filterMap_cons, hvariable, List.filterMap_nil]

/-- Whatever the parser, the type is that of the tree. -/
theorem parseWith_queryNode {parser : String → SyntaxTree} {source : String}
    {operation? : Option Name} {variableName field : Name} {t : TypeRef}
    {text variableText fieldText : NodeText}
    (h : parser source =
      ⟨[], [.operation (queryNode operation? variableName t field text variableText fieldText)]⟩) :
    ∃ document, Document.parseWith parser source = .ok document ∧
      document.DeclaresOnly variableName t := by
  obtain ⟨operation, hconvert, hkind, hdefinitions⟩ := convert_queryNode (.ofChars source.toList)
    operation? variableName t field text variableText fieldText
  refine ⟨⟨[operation], []⟩, ?_, ⟨operation, _, rfl, hkind, hdefinitions, rfl, rfl⟩, rfl⟩
  rw [Document.parseWith, h, Document.ofTree]
  simp only [List.map_nil, List.foldl_cons, List.foldl_nil, Document.Draft.add, hconvert]
  rfl

theorem ofSource_queryText {operation? : Option Name} {variableName field : Name} {t : TypeRef}
    (hoperation : ∀ name, operation? = some name → name.isValid) (hvariable : variableName.isValid)
    (hfield : field.isValid) (hname : t.innerName.isValid)
    (hdepth : t.listDepth ≤ Reader.nestingLimit) :
    ∃ text variableText fieldText,
      SyntaxTree.ofSource (queryText operation? variableName t.text field) = ⟨[],
        [.operation (queryNode operation? variableName t field text variableText fieldText)]⟩ := by
  obtain ⟨htokens, hinvalid⟩ :=
    Tokens.ofSource_of_lexes (lexes_queryText hoperation hvariable hname hfield)
  obtain ⟨text, variableText, fieldText, rest, hread⟩ :=
    Reader.read_definitions_of_query hdepth htokens
  refine ⟨text, variableText, fieldText, ?_⟩
  simp only [SyntaxTree.ofSource, hinvalid, hread]

/-! ## The text determines the type -/

theorem TypeRef.kinds_injective {t u : TypeRef} (h : t.kinds = u.kinds) : t = u := by
  -- some tokens of these kinds are read as both types, with levels enough for both
  have hmark : (⟨.endOfText, 0, [], []⟩ : Token).kind ≠ .mark '!' := by decide
  have htokens : (t.kinds.map (fun k => (⟨k, 0, [], []⟩ : Token))).map Token.kind = t.kinds := by
    rw [List.map_map]
    exact List.map_id t.kinds
  have ht := Reader.readsType_typeRefWithin (Nat.le_max_left t.listDepth u.listDepth) _ htokens _
    hmark []
  have hu := Reader.readsType_typeRefWithin (Nat.le_max_right t.listDepth u.listDepth) _
    (htokens.trans h) _ hmark []
  have hnode : t.node = u.node := by
    rw [ht] at hu
    exact (Prod.mk.inj (Except.ok.inj hu)).1
  have hconvert := convert_node t
  rw [hnode, convert_node u] at hconvert
  exact (Option.some.inj hconvert).symm

theorem TypeRef.text_injective {t u : TypeRef} (ht : t.innerName.isValid) (hu : u.innerName.isValid)
    (h : t.text = u.text) : t = u := by
  have hfound : ∀ v : TypeRef, v.innerName.isValid →
      Token.found (v.text.toList.length + 1) 0 v.text.toList =
        (v.kinds ++ [TokenKind.endOfText]).map Lexeme.token := by
    intro v hv
    have hends : EndsName [] := rfl
    have hlexes := v.lexes_text hv hends .nil
    rw [List.append_nil] at hlexes
    exact Token.found_of_lexes hlexes _ 0 (Nat.lt_succ_self _)
  have hsame := hfound u hu
  rw [← h, hfound t ht] at hsame
  have hkinds := (List.map_inj_right fun _ _ => Lexeme.token.inj).1 hsame
  exact kinds_injective (List.append_cancel_right hkinds)

/-- The text of every type with a valid name is read back as the type, where a query declares its one
variable with it, and it is the text of no other type.  Any parser that makes the query's tree of the
text will do, and the parser of this library does. -/
theorem TypeRef.text_readsBack :
    (∀ (parser : String → SyntaxTree) (source : String) (operation? : Option Name)
        (variableName field : Name) (t : TypeRef) (text variableText fieldText : NodeText),
      parser source = ⟨[],
        [.operation (queryNode operation? variableName t field text variableText fieldText)]⟩ →
      ∃ document, Document.parseWith parser source = .ok document ∧
        document.DeclaresOnly variableName t) ∧
    (∀ t : TypeRef, t.innerName.isValid → t.listDepth ≤ Reader.nestingLimit →
      ∀ (operation? : Option Name) (variableName field : Name),
        (∀ name, operation? = some name → name.isValid) → variableName.isValid → field.isValid →
        ∃ document, Document.parse (queryText operation? variableName t.text field) = .ok document ∧
          document.DeclaresOnly variableName t) ∧
    ∀ t u : TypeRef, t.innerName.isValid → u.innerName.isValid → t.text = u.text → t = u := by
  refine ⟨fun _ _ _ _ _ _ _ _ _ h => parseWith_queryNode h, ?_, fun t u ht hu h =>
    text_injective ht hu h⟩
  intro t ht hdepth operation? variableName field hoperation hvariable hfield
  obtain ⟨text, variableText, fieldText, htree⟩ :=
    ofSource_queryText hoperation hvariable hfield ht hdepth
  exact parseWith_queryNode htree

/-- A matrix whose rows are present, but may hold nulls. -/
def matrixType : TypeRef :=
  .nonNullList (.nonNullList (.list (.nonNullNamed "Int")))

theorem matrixType_text_readsBack :
    (∃ document, Document.parseWith SyntaxTree.ofSource
        "query Sum($m: [[[Int!]]!]!) \x7b total \x7d" = .ok document ∧
      document.DeclaresOnly "m" matrixType) ∧
    (∃ document, Document.parse "query ($m: [[[Int!]]!]!) \x7b total \x7d" = .ok document ∧
      document.DeclaresOnly "m" matrixType) ∧
    ∀ u : TypeRef, u.innerName.isValid → u.text = "[[[Int!]]!]!" → u = matrixType := by
  obtain ⟨hany, hown, hinjective⟩ := TypeRef.text_readsBack
  have htext : matrixType.text = "[[[Int!]]!]!" := by decide
  have hnamed : queryText (some "Sum") "m" matrixType.text "total" =
      "query Sum($m: [[[Int!]]!]!) \x7b total \x7d" := by decide
  have hunnamed : queryText none "m" matrixType.text "total" =
      "query ($m: [[[Int!]]!]!) \x7b total \x7d" := by decide
  have hname : ∀ name, some "Sum" = some name → Name.isValid name := by
    rintro name ⟨⟩
    decide
  have hnoName : ∀ name, none = some name → Name.isValid name := by
    rintro name ⟨⟩
  refine ⟨?_, ?_, ?_⟩
  · have hvariable : Name.isValid "m" := by decide
    have hfield : Name.isValid "total" := by decide
    have hinner : matrixType.innerName.isValid := by decide
    obtain ⟨text, variableText, fieldText, htree⟩ :=
      ofSource_queryText hname hvariable hfield hinner (by decide)
    rw [hnamed] at htree
    exact hany _ _ _ _ _ _ _ _ _ htree
  · rw [← hunnamed]
    exact hown matrixType (by decide) (by decide) none "m" "total" hnoName (by decide) (by decide)
  · intro u hu hsame
    exact hinjective u matrixType hu (by decide) (hsame.trans htext.symm)

end GraphQLEngine
