/-
Names that are read are valid.

A lexer reads names character by character, and `Name.isValid` tests a whole
text by its bytes.  Both accept the same texts (`Tokens.isValid_iff`), and every
name in a document that was read from text was a name token of it.  So the names
of such a document are valid (`Name.isValid_everywhere`), and those that a
schema checks can be the same.
-/
import GraphQLEngine.Proofs.NameSyntax
import GraphQLEngine.Proofs.TokenNames
import GraphQLEngine.Proofs.TypeNotation

namespace GraphQLEngine

/-! ## Name tokens -/

namespace Token

theorem isValid_of_readLexeme {c : Char} {rest : List Char} {n : Name}
    (h : (readLexeme c rest).1 = .token (.name n)) : n.isValid := by
  unfold readLexeme at h
  split at h
  · cases h
  split at h
  · cases h
  split at h
  · cases h
  split at h
  · cases h
  split at h
  · next hstart =>
    cases h
    exact Name.isValid_iff_chars.2 ⟨c, rest.takeWhile Name.isContinue, String.toList_ofList, hstart,
      List.all_eq_true.1 List.all_takeWhile⟩
  split at h
  · cases (readPoints_token (Prod.ext h rfl)).1
  split at h
  · obtain ⟨s, hs⟩ := readAnyString_token (Prod.ext h rfl)
    cases hs
  split at h
  · split at h <;> cases h
  · cases h

theorem isValid_of_mem_scan {fuel offset : Nat} {text : List Char} {piece : Piece Lexeme} {n : Name}
    (hpiece : piece ∈ scan fuel offset text) (hn : piece.kind = .token (.name n)) : n.isValid := by
  induction fuel generalizing offset text with
  | zero => cases hpiece
  | succ fuel ih =>
    cases text with
    | nil =>
      rw [List.mem_singleton.1 hpiece] at hn
      cases hn
    | cons c rest =>
      obtain ⟨text, -, -, hscan⟩ := scan_cons fuel offset c rest
      rw [hscan] at hpiece
      rcases List.mem_cons.1 hpiece with rfl | hpiece
      · exact isValid_of_readLexeme hn
      · exact ih hpiece

end Token

/-- The name tokens of a text are names of the grammar. -/
theorem Tokens.isValid_of_mem {source : String} {n : Name}
    (h : .name n ∈ (ofSource source).tokens.map Token.kind) : n.isValid := by
  obtain ⟨token, htoken, hkind⟩ := List.mem_map.1 h
  have hpiece := (Token.map_piece_ofPieces_sublist [] _).subset (List.mem_map_of_mem htoken)
  exact Token.isValid_of_mem_scan hpiece (congrArg Lexeme.token hkind)

/-- The texts that are one name token are the names of the grammar. -/
theorem Tokens.isValid_iff {name : Name} :
    name.isValid = true ↔
      (ofSource name).tokens.map Token.kind = [.name name, .endOfText] := by
  constructor
  · intro h
    have hlexes : Lexes (name.toList ++ []) [.name name, .endOfText] := .name h List.takeWhile_nil .nil
    rw [List.append_nil] at hlexes
    exact (ofSource_of_lexes hlexes).1
  · intro h
    have hmem : .name name ∈ (ofSource name).tokens.map Token.kind := h ▸ List.mem_cons_self
    exact isValid_of_mem hmem

/-! ## Names of documents -/

/-- The names in a document are valid if its parser takes names from name tokens. -/
theorem Document.isValid_of_parseWith {parser : String → SyntaxTree} {source : String}
    {document : Document} (hparser : (parser source).NamesAreTokens source)
    (h : parseWith parser source = .ok document) : ∀ n ∈ document.names, n.isValid :=
  fun n hn => Tokens.isValid_of_mem (hparser n (names_of_parseWith h hn))

/-- Whether a text is a name is decided in the same way everywhere.  The test of its bytes accepts
the names of the grammar, which are not empty and hold ASCII characters only, and the lexer reads
these, and no other texts, as a name.  All names in a document that is read from text pass the test,
with any parser that takes names from name tokens, as the parser of this library does. -/
theorem Name.isValid_everywhere :
    (∀ name : Name, name.isValid = true ↔ name.WellFormed) ∧
    isValid "" = false ∧
    (∀ (name : Name) (c : Char), c ∈ name.toList → 128 ≤ c.toNat → name.isValid = false) ∧
    (∀ name : Name, name.isValid = true ↔
      (Tokens.ofSource name).tokens.map Token.kind = [.name name, .endOfText]) ∧
    (∀ (parser : String → SyntaxTree) (source : String) (document : Document),
      (parser source).NamesAreTokens source → Document.parseWith parser source = .ok document →
      ∀ n ∈ document.names, n.isValid = true) ∧
    ∀ (source : String) (document : Document), Document.parse source = .ok document →
      ∀ n ∈ document.names, n.isValid = true := by
  refine ⟨fun name => isValid_iff, rfl, ?_, fun name => Tokens.isValid_iff,
    fun _ _ _ hparser h => Document.isValid_of_parseWith hparser h, ?_⟩
  · intro name c hc hwide
    rw [Bool.eq_false_iff]
    exact fun hvalid => Nat.not_lt_of_le hwide (lt_of_isValid hvalid c hc)
  · intro source document h
    exact Document.isValid_of_parseWith (SyntaxTree.namesAreTokens_ofSource source) h

/-- A text with names in all places that a document has for them. -/
def namedText : String :=
  "query Q($v: [T!] = \x7bk: E\x7d) @d(a: $v) \x7b b: f(x: [E2]) @_e ... on U1 \x7b g \x7d ...F \x7d" ++
    " fragment F on V @h \x7b __typename \x7d"

theorem Name.namedText_isValid :
    ∃ document, Document.parse namedText = .ok document ∧
      (SyntaxTree.ofSource namedText).NamesAreTokens namedText ∧
      document.names = ["Q", "v", "T", "k", "E", "d", "a", "v", "b", "f", "x", "E2", "_e", "U1", "g",
        "F", "F", "F", "V", "h", "__typename"] ∧
      (∀ n ∈ document.names, n.isValid = true) ∧ isValid "__typename" = true ∧
      WellFormed "secretBackstory2" ∧ isValid "h\u00e9ro" = false := by
  have hnames : (Document.parse namedText).toOption.map Document.names =
      some ["Q", "v", "T", "k", "E", "d", "a", "v", "b", "f", "x", "E2", "_e", "U1", "g",
        "F", "F", "F", "V", "h", "__typename"] := by
    decide +kernel
  cases hparse : Document.parse namedText with
  | error errors =>
    rw [hparse] at hnames
    cases hnames
  | ok document =>
    rw [hparse] at hnames
    have hlist := Option.some.inj hnames
    have htokens := SyntaxTree.namesAreTokens_ofSource namedText
    obtain ⟨hgrammar, -, hwide, -, hany, hown⟩ := isValid_everywhere
    refine ⟨document, rfl, htokens, hlist, hany SyntaxTree.ofSource namedText document htokens hparse,
      hown namedText document hparse _ ?_, (hgrammar _).1 ?_, hwide _ 'é' ?_ ?_⟩
    · show "__typename" ∈ document.names
      rw [show document.names = _ from hlist]
      decide
    · decide
    · decide
    · decide

end GraphQLEngine
