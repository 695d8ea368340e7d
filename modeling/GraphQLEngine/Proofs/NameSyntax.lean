/-
Which texts are names.

`Name.WellFormed` says it by characters, as the grammar does, and
`Name.isValid` tests the bytes of the encoding.  Both say the same
(`Name.isValid_iff`): an ASCII character is encoded as itself, and the encoding
of any other character starts with a byte of 128 or more, which no name has.
-/
import Mathlib.Tactic.Tauto
import GraphQLEngine.Name

namespace GraphQLEngine

namespace Name

/-- A text that the grammar of the query language has as a name: letters, digits and underscores,
and no digit first. -/
def WellFormed (name : Name) : Prop :=
  ∃ c rest, name.toList = c :: rest ∧ (c.isAlpha ∨ c = '_') ∧ ∀ d ∈ rest, d.isAlphanum ∨ d = '_'

/-! ## Characters -/

theorem isStart_iff {c : Char} : isStart c = true ↔ c.isAlpha ∨ c = '_' := by
  have hupper : c.isUpper = decide (c.val ≥ 'A'.val ∧ c.val ≤ 'Z'.val) := rfl
  have hlower : c.isLower = (decide (c.val ≥ 'a'.val) && decide (c.val ≤ 'z'.val)) := rfl
  have halpha : c.isAlpha = (c.isUpper || c.isLower) := rfl
  rw [halpha, hupper, hlower]
  simp only [isStart, Char.le_def, Bool.or_eq_true, Bool.and_eq_true, decide_eq_true_eq, beq_iff_eq,
    ge_iff_le]
  tauto

theorem isContinue_iff {c : Char} : isContinue c = true ↔ c.isAlphanum ∨ c = '_' := by
  simp only [isContinue, Char.isAlphanum, Char.isDigit, Bool.or_eq_true, isStart_iff, Char.le_def,
    Bool.and_eq_true, decide_eq_true_eq, ge_iff_le]
  tauto

/-! ## Code points and bytes -/

/-- The numbers of letters and of the underscore, as code points and as bytes. -/
def StartCode (n : Nat) : Prop :=
  (97 ≤ n ∧ n ≤ 122) ∨ (65 ≤ n ∧ n ≤ 90) ∨ n = 95

/-- The same with those of the digits. -/
def ContinueCode (n : Nat) : Prop :=
  StartCode n ∨ (48 ≤ n ∧ n ≤ 57)

theorem ContinueCode.lt {n : Nat} (h : ContinueCode n) : n < 128 := by
  unfold ContinueCode StartCode at h
  omega

theorem isStart_iff_startCode {c : Char} : isStart c = true ↔ StartCode c.toNat := by
  have hunderscore : c = '_' ↔ c.toNat = 95 := Char.toNat_inj.symm
  simp only [isStart, Bool.or_eq_true, Bool.and_eq_true, decide_eq_true_eq, beq_iff_eq, hunderscore,
    or_assoc]
  exact Iff.rfl

theorem isContinue_iff_continueCode {c : Char} : isContinue c = true ↔ ContinueCode c.toNat := by
  simp only [isContinue, Bool.or_eq_true, Bool.and_eq_true, decide_eq_true_eq, isStart_iff_startCode]
  exact Iff.rfl

theorem isStartByte_iff_startCode {b : UInt8} : isStartByte b = true ↔ StartCode b.toNat := by
  have hunderscore : b = '_'.toUInt8 ↔ b.toNat = 95 := UInt8.toNat_inj.symm
  simp only [isStartByte, Bool.or_eq_true, Bool.and_eq_true, decide_eq_true_eq, beq_iff_eq,
    hunderscore, or_assoc]
  exact Iff.rfl

theorem isContinueByte_iff_continueCode {b : UInt8} :
    isContinueByte b = true ↔ ContinueCode b.toNat := by
  simp only [isContinueByte, Bool.or_eq_true, Bool.and_eq_true, decide_eq_true_eq,
    isStartByte_iff_startCode]
  exact Iff.rfl

/-! ## Encoded characters -/

/-- An ASCII character is encoded as itself. -/
theorem utf8EncodeChar_ascii {c : Char} (h : c.toNat < 128) :
    ∃ b, String.utf8EncodeChar c = [b] ∧ b.toNat = c.toNat := by
  refine ⟨UInt8.ofNat c.toNat, if_pos (Nat.le_of_lt_succ h), ?_⟩
  rw [UInt8.toNat_ofNat']
  omega

/-- The encoding of any other character starts with a byte of 128 or more. -/
theorem utf8EncodeChar_wide {c : Char} (h : 128 ≤ c.toNat) :
    ∃ b more, String.utf8EncodeChar c = b :: more ∧ 128 ≤ b.toNat := by
  have hwide : ¬ c.val.toNat ≤ 127 := Nat.not_le_of_lt h
  fun_cases String.utf8EncodeChar c with
  | case1 v hascii => exact absurd hascii hwide
  | case2 v => exact ⟨_, _, rfl, by rw [UInt8.toNat_ofNat']; omega⟩
  | case3 v => exact ⟨_, _, rfl, by rw [UInt8.toNat_ofNat']; omega⟩
  | case4 v => exact ⟨_, _, rfl, by rw [UInt8.toNat_ofNat']; omega⟩

/-- The bytes of a character continue a name if the character does. -/
theorem all_isContinueByte_iff {c : Char} :
    (String.utf8EncodeChar c).all isContinueByte = true ↔ isContinue c = true := by
  rw [isContinue_iff_continueCode]
  rcases Nat.lt_or_ge c.toNat 128 with hascii | hwide
  · obtain ⟨b, hbytes, hb⟩ := utf8EncodeChar_ascii hascii
    rw [hbytes, List.all_cons, List.all_nil, Bool.and_true, isContinueByte_iff_continueCode, hb]
  · obtain ⟨b, more, hbytes, hb⟩ := utf8EncodeChar_wide hwide
    rw [hbytes, List.all_cons, Bool.and_eq_true, isContinueByte_iff_continueCode]
    exact iff_of_false (fun h => Nat.not_lt_of_le hb h.1.lt) (fun h => Nat.not_lt_of_le hwide h.lt)

/-- The bytes of a text are those of a name if its first character starts a name and the others
continue it. -/
theorem isValidBytes_cons_iff {c : Char} {rest : List Char} :
    isValidBytes ((c :: rest).flatMap String.utf8EncodeChar) = true ↔
      isStart c = true ∧ ∀ d ∈ rest, isContinue d = true := by
  have hrest : (rest.flatMap String.utf8EncodeChar).all isContinueByte = true ↔
      ∀ d ∈ rest, isContinue d = true := by
    rw [List.all_flatMap, List.all_eq_true]
    exact forall₂_congr fun d _ => all_isContinueByte_iff
  rw [List.flatMap_cons, isStart_iff_startCode]
  rcases Nat.lt_or_ge c.toNat 128 with hascii | hwide
  · obtain ⟨b, hbytes, hb⟩ := utf8EncodeChar_ascii hascii
    rw [hbytes, List.singleton_append, isValidBytes, Bool.and_eq_true, isStartByte_iff_startCode, hb,
      hrest]
  · obtain ⟨b, more, hbytes, hb⟩ := utf8EncodeChar_wide hwide
    rw [hbytes, List.cons_append, isValidBytes, Bool.and_eq_true, isStartByte_iff_startCode]
    exact iff_of_false (fun h => Nat.not_lt_of_le hb (ContinueCode.lt (.inl h.1)))
      (fun h => Nat.not_lt_of_le hwide (ContinueCode.lt (.inl h.1)))

/-! ## Texts -/

theorem isValid_iff_chars {name : Name} :
    isValid name = true ↔
      ∃ c rest, name.toList = c :: rest ∧ isStart c = true ∧ ∀ d ∈ rest, isContinue d = true := by
  obtain ⟨text, rfl⟩ := name.exists_eq_ofList
  rw [isValid, String.toUTF8_eq_toByteArray, String.toByteArray_ofList, List.utf8Encode,
    List.toList_data_toByteArray, String.toList_ofList]
  cases text with
  | nil => exact iff_of_false Bool.false_ne_true (by rintro ⟨c, rest, heq, -⟩; cases heq)
  | cons c rest =>
    rw [isValidBytes_cons_iff]
    constructor
    · exact fun h => ⟨c, rest, rfl, h⟩
    · rintro ⟨c', rest', heq, h⟩
      cases heq
      exact h

theorem isValid_iff {name : Name} : isValid name = true ↔ WellFormed name := by
  rw [isValid_iff_chars, WellFormed]
  simp only [isStart_iff, isContinue_iff]

/-- Names are made of ASCII characters. -/
theorem lt_of_isValid {name : Name} (h : isValid name = true) : ∀ c ∈ name.toList, c.toNat < 128 := by
  obtain ⟨c, rest, htext, hc, hrest⟩ := isValid_iff_chars.1 h
  rw [htext, List.forall_mem_cons]
  exact ⟨ContinueCode.lt (.inl (isStart_iff_startCode.1 hc)),
    fun d hd => (isContinue_iff_continueCode.1 (hrest d hd)).lt⟩

end Name

end GraphQLEngine
