/-
The pieces of a text.

`Covers` says that pieces make up a text one after the other, with nothing
between them.  Then they stand in the order of the text, each at a character
of it (`Covers.ordered`, `Covers.stands`).  Whatever is read off the front of
a text leaves an end of it, and so the scan of a text covers it; where nothing
in the text is invalid, the tokens are the significant pieces.
-/
import GraphQLEngine.Proofs.Locations
import GraphQLEngine.Source.Token

namespace GraphQLEngine

/-! ## Numbers -/

namespace NumberText

theorem readFraction_suffix {s : List Char} {fraction : Option (List Char)} {rest : List Char}
    (h : readFraction s = some (fraction, rest)) : rest <:+ s := by
  unfold readFraction at h
  split at h
  · dsimp only at h
    split at h
    · cases h
    · cases h
      exact (List.dropWhile_suffix _).trans (List.suffix_cons _ _)
  · cases h
    exact List.suffix_refl s

theorem readExponent_suffix {s : List Char} {exponent : Option Int} {rest : List Char}
    (h : readExponent s = some (exponent, rest)) : rest <:+ s := by
  unfold readExponent at h
  split at h
  · next c after =>
    split at h
    · split at h
      next negative signed hsign =>
      have hsigned : signed <:+ after := by
        split at hsign <;> cases hsign
        · exact List.suffix_cons _ _
        · exact List.suffix_cons _ _
        · exact List.suffix_refl _
      dsimp only at h
      split at h
      · cases h
      · cases h
        exact ((List.dropWhile_suffix _).trans hsigned).trans (List.suffix_cons _ _)
    · cases h
      exact List.suffix_refl _
  · cases h
    exact List.suffix_refl _

/-- A number has at least one character. -/
theorem read_suffix {c : Char} {rest after : List Char} {text : NumberText}
    (h : read (c :: rest) = some (text, after)) : after <:+ rest := by
  unfold read at h
  split at h
  next negative s hsign =>
  dsimp only at h
  split at h
  · cases h
  · next hwhole =>
    obtain ⟨⟨fraction, s'⟩, hfraction, h⟩ := Option.bind_eq_some_iff.1 h
    obtain ⟨⟨exponent, s''⟩, hexponent, h⟩ := Option.bind_eq_some_iff.1 h
    cases h
    refine ((readExponent_suffix hexponent).trans (readFraction_suffix hfraction)).trans ?_
    split at hsign
    · next heq =>
      cases heq
      cases hsign
      exact List.dropWhile_suffix _
    · cases hsign
      -- without a sign the first character is a digit
      by_cases hc : c.isDigit
      · rw [List.dropWhile_cons_of_pos hc]
        exact List.dropWhile_suffix _
      · rw [List.takeWhile_cons_of_neg hc] at hwhole
        exact absurd rfl hwhole

end NumberText

/-! ## Quoted text -/

namespace Escape

theorem readHex4_suffix {s rest : List Char} {n : Nat} (h : readHex4 s = some (n, rest)) :
    rest <:+ s := by
  unfold readHex4 at h
  split at h
  · simp only [Option.bind_eq_bind, Option.bind_eq_some_iff, Option.some.injEq, Prod.mk.injEq] at h
    obtain ⟨-, -, -, -, -, -, -, -, -, rfl⟩ := h
    exact ⟨[_, _, _, _], rfl⟩
  · cases h

theorem readUnicode_suffix {s rest : List Char} {c : Char} (h : readUnicode s = some (c, rest)) :
    rest <:+ s := by
  unfold readUnicode at h
  obtain ⟨⟨n, after⟩, hn, h⟩ := Option.bind_eq_some_iff.1 h
  dsimp only at h
  split at h
  · cases h
  · split at h
    · split at h
      · obtain ⟨⟨m, after'⟩, hm, h⟩ := Option.bind_eq_some_iff.1 h
        dsimp only at h
        split at h
        · obtain ⟨-, rfl⟩ := Prod.mk.inj (Option.some.inj h)
          have hpair := (readHex4_suffix hm).trans (List.suffix_append ['\\', 'u'] _)
          exact hpair.trans (readHex4_suffix hn)
        · cases h
      · cases h
    · cases h
      exact readHex4_suffix hn

end Escape

namespace Token

theorem readBracedUnicode_suffix {s rest : List Char} {c : Char}
    (h : readBracedUnicode s = some (c, rest)) : rest <:+ s := by
  unfold readBracedUnicode at h
  dsimp only at h
  split at h
  · cases h
  · split at h
    · next after hafter =>
      split at h
      · obtain ⟨-, rfl⟩ := Prod.mk.inj (Option.some.inj h)
        exact (List.suffix_cons _ _).trans (hafter ▸ List.dropWhile_suffix _)
      · cases h
    · cases h

theorem readString_suffix {fuel : Nat} {read s found rest : List Char}
    (h : readString fuel read s = some (found, rest)) : rest <:+ s := by
  induction fuel generalizing read s with
  | zero => cases h
  | succ fuel ih =>
    cases s with
    | nil => cases h
    | cons c after =>
      unfold readString at h
      split at h
      · cases h
        exact List.suffix_cons _ _
      · split at h
        · cases h
        · split at h
          · split at h
            · cases h
            · obtain ⟨⟨e, after'⟩, he, h⟩ := Option.bind_eq_some_iff.1 h
              exact ((ih h).trans (readBracedUnicode_suffix he)).trans
                (List.suffix_append [c, 'u', '\x7b'] _)
            · obtain ⟨⟨e, after'⟩, he, h⟩ := Option.bind_eq_some_iff.1 h
              exact ((ih h).trans (Escape.readUnicode_suffix he)).trans
                (List.suffix_append [c, 'u'] _)
            · next e after' _ _ =>
              obtain ⟨_, -, h⟩ := Option.bind_eq_some_iff.1 h
              exact (ih h).trans (List.suffix_append [c, e] _)
          · exact (ih h).trans (List.suffix_cons _ _)

theorem readQuoted_suffix {s found rest : List Char} (h : readQuoted s = some (found, rest)) :
    rest <:+ s := by
  unfold readQuoted at h
  split at h
  · cases h
  · split at h
    · exact (readString_suffix h).trans (List.suffix_cons _ _)
    · exact readString_suffix h

theorem skipQuoted_suffix (s : List Char) : skipQuoted s <:+ s := by
  fun_induction skipQuoted s with
  | case1 => exact List.suffix_refl []
  | case2 c rest ih => exact ih.trans (List.suffix_append ['\\', c] rest)
  | case3 c rest => exact List.suffix_cons c rest
  | case4 c rest _ _ ih => exact ih.trans (List.suffix_cons c rest)

theorem readBlock_suffix {read s found rest : List Char} (h : readBlock read s = some (found, rest)) :
    rest <:+ s := by
  fun_induction readBlock read s with
  | case1 => cases h
  | case2 read after =>
    cases h
    exact List.suffix_append ['"', '"', '"'] _
  | case3 read after ih => exact (ih h).trans (List.suffix_append ['\\', '"', '"', '"'] _)
  | case4 read c after _ _ ih => exact (ih h).trans (List.suffix_cons _ _)

/-! ## One lexeme -/

theorem readNumber_suffix {c : Char} {rest after : List Char} {text : NumberText}
    (h : readNumber (c :: rest) = some (text, after)) : after <:+ rest := by
  unfold readNumber at h
  obtain ⟨⟨text', after'⟩, hread, h⟩ := Option.bind_eq_some_iff.1 h
  dsimp only at h
  have hsuffix := NumberText.read_suffix hread
  split at h
  · cases h
    exact hsuffix
  · split at h
    · cases h
    · cases h
      exact hsuffix

theorem readPoints_suffix (s : List Char) : (readPoints s).2 <:+ s := by
  unfold readPoints
  split
  · exact List.suffix_append ['.', '.'] _
  · exact List.suffix_cons _ _
  · exact List.suffix_refl s

theorem readAnyString_suffix (s : List Char) : (readAnyString s).2 <:+ s := by
  unfold readAnyString
  split
  · split
    · next h => exact (readBlock_suffix h).trans (List.suffix_append ['"', '"'] _)
    · exact List.nil_suffix
  · split
    · next h => exact readQuoted_suffix h
    · exact skipQuoted_suffix s

/-- A lexeme takes at least its first character. -/
theorem readLexeme_suffix (c : Char) (rest : List Char) : (readLexeme c rest).2 <:+ rest := by
  unfold readLexeme
  split
  · exact List.suffix_refl rest
  split
  · exact List.dropWhile_suffix _
  split
  · exact List.suffix_refl rest
  split
  · exact List.suffix_refl rest
  split
  · exact List.dropWhile_suffix _
  split
  · exact readPoints_suffix rest
  split
  · exact readAnyString_suffix rest
  split
  · split
    · next h => exact readNumber_suffix h
    · exact List.dropWhile_suffix _
  · exact List.suffix_refl rest

end Token

/-! ## The words of tokens -/

/-- What a token starts with, if its kind says so. -/
def TokenKind.word : TokenKind → List Char
  | .mark c => [c]
  | .ellipsis => ['.', '.', '.']
  | .name n => n.toList
  | .number _ => []
  | .string _ => ['"']
  | .endOfText => []

namespace Token

theorem readPoints_token {rest after : List Char} {k : TokenKind}
    (h : readPoints rest = (.token k, after)) : k = .ellipsis ∧ rest = ['.', '.'] ++ after := by
  unfold readPoints at h
  split at h
  · cases h
    exact ⟨rfl, rfl⟩
  · cases h
  · cases h

theorem readAnyString_token {rest after : List Char} {k : TokenKind}
    (h : readAnyString rest = (.token k, after)) : ∃ s, k = .string s := by
  unfold readAnyString at h
  split at h
  · split at h
    · cases h
      exact ⟨_, rfl⟩
    · cases h
  · split at h
    · cases h
      exact ⟨_, rfl⟩
    · cases h

/-- A token that is read starts with its word, and is not the end of the text. -/
theorem readLexeme_token {c : Char} {rest after : List Char} {k : TokenKind}
    (h : readLexeme c rest = (.token k, after)) :
    (∃ more, c :: rest = k.word ++ (more ++ after)) ∧ k ≠ .endOfText := by
  obtain ⟨passed, hpassed⟩ := readLexeme_suffix c rest
  rw [h] at hpassed
  unfold readLexeme at h
  split at h
  · cases h
  split at h
  · cases h
  split at h
  · cases h
    exact ⟨⟨[], rfl⟩, TokenKind.noConfusion⟩
  split at h
  · cases h
  split at h
  · cases h
    refine ⟨⟨[], ?_⟩, TokenKind.noConfusion⟩
    rw [TokenKind.word, String.toList_ofList, List.nil_append, List.cons_append,
      List.takeWhile_append_dropWhile]
  split at h
  · next hpoint =>
    obtain ⟨rfl, hpoints⟩ := readPoints_token h
    refine ⟨⟨[], ?_⟩, TokenKind.noConfusion⟩
    rw [beq_iff_eq.1 hpoint, hpoints]
    rfl
  split at h
  · next hquote =>
    obtain ⟨s, rfl⟩ := readAnyString_token h
    refine ⟨⟨passed, ?_⟩, TokenKind.noConfusion⟩
    rw [beq_iff_eq.1 hquote, ← hpassed]
    rfl
  split at h
  · split at h
    · cases h
      exact ⟨⟨c :: passed, by rw [← hpassed]; rfl⟩, TokenKind.noConfusion⟩
    · cases h
  · cases h

end Token

/-! ## Pieces one after the other -/

/-- A piece has a text, which starts with its word if it is a token. -/
def Piece.IsSpelled (piece : Piece Lexeme) : Prop :=
  piece.text ≠ [] ∧ ∀ kind, piece.kind = .token kind → kind.word <+: piece.text

/-- Pieces make up a text that starts at a byte offset, with nothing between them. -/
inductive Covers : Nat → List Char → List (Piece Lexeme) → Prop
  | nil (offset : Nat) : Covers offset [] []
  | cons {piece : Piece Lexeme} {left : List Char} {rest : List (Piece Lexeme)}
      (hspelled : piece.IsSpelled) :
      Covers (piece.offset + byteLength piece.text) left rest →
      Covers piece.offset (piece.text ++ left) (piece :: rest)

/-- A piece stands in a text: at its offset there is a character of the text, and there the text goes on
with the word of the piece if it is a token. -/
def Piece.StandsIn (text : List Char) (piece : Piece Lexeme) : Prop :=
  ∃ read left, text = read ++ left ∧ byteLength read = piece.offset ∧
    ∀ kind, piece.kind = .token kind → kind.word <+: left

namespace Covers

variable {read text : List Char} {pieces : List (Piece Lexeme)}

theorem le_offset {offset : Nat} (h : Covers offset text pieces) :
    ∀ piece ∈ pieces, offset ≤ piece.offset := by
  induction h with
  | nil => exact List.forall_mem_nil _
  | cons _ _ ih =>
    exact List.forall_mem_cons.2 ⟨Nat.le_refl _, fun later hlater =>
      Nat.le_of_add_right_le (ih later hlater)⟩

/-- Each piece starts after the ones before it. -/
theorem ordered {offset : Nat} (h : Covers offset text pieces) :
    (pieces.map Piece.offset).Pairwise (· < ·) := by
  rw [List.pairwise_map]
  induction h with
  | nil => exact List.Pairwise.nil
  | cons hspelled hrest ih =>
    have hpos := byteLength_pos hspelled.1
    exact List.pairwise_cons.2 ⟨fun later hlater =>
      Nat.lt_of_lt_of_le (Nat.lt_add_of_pos_right hpos) (hrest.le_offset later hlater), ih⟩

/-- The pieces of the end of a text stand in the text. -/
theorem stands_append {offset : Nat} (h : Covers offset text pieces)
    (hread : byteLength read = offset) : ∀ piece ∈ pieces, piece.StandsIn (read ++ text) := by
  -- the text before the end grows by each piece, and the whole text stays
  induction h generalizing read with
  | nil => exact List.forall_mem_nil _
  | @cons piece left rest hspelled _ ih =>
    refine List.forall_mem_cons.2 ⟨?_, ?_⟩
    · exact ⟨read, piece.text ++ left, rfl, hread, fun kind hkind =>
        (hspelled.2 kind hkind).trans (List.prefix_append piece.text left)⟩
    · rw [← List.append_assoc]
      exact ih (by rw [byteLength_append, hread])

theorem stands (h : Covers 0 text pieces) : ∀ piece ∈ pieces, piece.StandsIn text :=
  h.stands_append (rfl : byteLength [] = 0)

end Covers

namespace Token

/-! ## The scan of a text -/

/-- One step of a scan gives the lexeme at the front of the text, and goes on after it. -/
theorem scan_cons (fuel offset : Nat) (c : Char) (rest : List Char) :
    ∃ text, text ++ (readLexeme c rest).2 = c :: rest ∧
      Piece.IsSpelled ⟨(readLexeme c rest).1, offset, text⟩ ∧
      scan (fuel + 1) offset (c :: rest) = ⟨(readLexeme c rest).1, offset, text⟩ ::
        scan fuel (offset + byteLength text) (readLexeme c rest).2 := by
  obtain ⟨passed, hpassed⟩ := readLexeme_suffix c rest
  have htext : c :: passed ++ (readLexeme c rest).2 = c :: rest := by
    rw [List.cons_append, hpassed]
  refine ⟨c :: passed, htext, ⟨List.cons_ne_nil _ _, fun kind hkind => ?_⟩, ?_⟩
  · obtain ⟨⟨more, hmore⟩, -⟩ := readLexeme_token (Prod.ext hkind rfl)
    rw [← htext, ← List.append_assoc] at hmore
    exact ⟨more, (List.append_cancel_right hmore).symm⟩
  · have htake : (c :: rest).take ((c :: rest).length - (readLexeme c rest).2.length) =
        c :: passed := by
      rw [← htext, List.length_append, Nat.add_sub_cancel, List.take_left]
    rw [scan]
    dsimp only
    rw [htake]

/-- With fuel enough, a scan covers the text, and the end of the text comes after all pieces. -/
theorem scan_covers {fuel : Nat} {text : List Char} (h : text.length < fuel) (offset : Nat) :
    ∃ pieces last, scan fuel offset text = pieces ++ [⟨.token .endOfText, last, []⟩] ∧
      Covers offset text pieces ∧ ∀ piece ∈ pieces, piece.kind ≠ .token .endOfText := by
  induction fuel generalizing text offset with
  | zero => cases h
  | succ fuel ih =>
    cases text with
    | nil => exact ⟨[], offset, rfl, .nil offset, List.forall_mem_nil _⟩
    | cons c rest =>
      obtain ⟨text, htext, hspelled, hscan⟩ := scan_cons fuel offset c rest
      have hlength := (readLexeme_suffix c rest).length_le
      rw [List.length_cons] at h
      obtain ⟨pieces, last, hpieces, hcovers, hnone⟩ :=
        ih (Nat.lt_of_le_of_lt hlength (Nat.lt_of_succ_lt_succ h)) (offset + byteLength text)
      refine ⟨_ :: pieces, last, by rw [hscan, hpieces, List.cons_append], ?_,
        List.forall_mem_cons.2 ⟨fun hend => ?_, hnone⟩⟩
      · rw [← htext]
        exact .cons hspelled hcovers
      · exact (readLexeme_token (Prod.ext hend rfl)).2 rfl

theorem map_piece_ofPieces_sublist (before : List (Piece IgnoredKind)) (pieces : List (Piece Lexeme)) :
    ((ofPieces before pieces).map piece).Sublist pieces := by
  fun_induction ofPieces before pieces with
  | case1 => exact .slnil
  | case2 before kind offset text rest ih => exact ih.cons_cons _
  | case3 before kind offset text rest ih => exact ih.cons _
  | case4 before offset text rest ih => exact ih.cons _

/-- Among pieces none of which is invalid, the tokens are the significant ones. -/
theorem map_piece_ofPieces (before : List (Piece IgnoredKind)) {pieces : List (Piece Lexeme)}
    (h : ∀ piece ∈ pieces, piece.kind ≠ .invalid) :
    (ofPieces before pieces).map piece = pieces.filter (fun piece => piece.kind.isSignificant) := by
  fun_induction ofPieces before pieces with
  | case1 => rfl
  | case2 before kind offset text rest ih =>
    rw [List.map_cons, ih (List.forall_mem_cons.1 h).2, List.filter_cons_of_pos rfl]
    rfl
  | case3 before kind offset text rest ih =>
    rw [ih (List.forall_mem_cons.1 h).2, List.filter_cons_of_neg Bool.false_ne_true]
  | case4 before offset text rest ih => exact absurd rfl (List.forall_mem_cons.1 h).1

end Token

/-- A text in which nothing is invalid is covered by pieces of which the significant ones are its
tokens, but for the end of the text, which is the last token and no other one. -/
theorem Tokens.covered_ofSource {source : String} (h : (ofSource source).invalid = []) :
    ∃ pieces tokens last, (ofSource source).tokens = tokens ++ [last] ∧ last.kind = .endOfText ∧
      (∀ token ∈ tokens, token.kind ≠ .endOfText) ∧ Covers 0 source.toList pieces ∧
      pieces.filter (fun piece => piece.kind.isSignificant) = tokens.map Token.piece := by
  obtain ⟨pieces, offset, hscan, hcovers, hnone⟩ :=
    Token.scan_covers (Nat.lt_succ_self source.toList.length) 0
  have hvalid : ∀ piece ∈ Token.scan (source.toList.length + 1) 0 source.toList,
      piece.kind ≠ .invalid := by
    intro piece hpiece heq
    have hfilter := List.map_eq_nil_iff.1 h
    exact List.filter_eq_nil_iff.1 hfilter piece hpiece (beq_iff_eq.2 heq)
  have htokens := Token.map_piece_ofPieces [] hvalid
  rw [hscan, List.filter_append, List.map_eq_append_iff] at htokens
  obtain ⟨tokens, ends, heq, hpieces, hends⟩ := htokens
  obtain ⟨last, rfl, hlast⟩ := List.map_eq_singleton_iff.1 hends
  have hkind : last.kind = .endOfText := Lexeme.token.inj (congrArg Piece.kind hlast)
  refine ⟨pieces, tokens, last, by rw [ofSource, hscan, heq], hkind, fun token htoken hend => ?_,
    hcovers, hpieces.symm⟩
  have hmem : token.piece ∈ pieces :=
    (List.mem_filter.1 (hpieces ▸ List.mem_map_of_mem htoken)).1
  exact hnone _ hmem (congrArg Lexeme.token hend)

end GraphQLEngine
