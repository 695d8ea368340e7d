/-
Locations of byte offsets.

At a character boundary, the binary search over the line starts and the count
of characters from there come to the same as a walk over the text from its
start, and that counts line feeds and characters.  Every character moves such
a walk on, so the locations of boundaries are in the order of their offsets.
-/
import GraphQLEngine.Source.Location

namespace GraphQLEngine

/-! ## Bytes -/

theorem foldl_utf8Size (s : List Char) (n : Nat) :
    s.foldl (fun n c => n + c.utf8Size) n = n + byteLength s := by
  induction s generalizing n with
  | nil => rfl
  | cons c rest ih =>
    show rest.foldl _ (n + c.utf8Size) = n + rest.foldl _ (0 + c.utf8Size)
    rw [ih, ih]
    omega

@[simp] theorem byteLength_nil : byteLength [] = 0 := rfl

@[simp] theorem byteLength_cons (c : Char) (s : List Char) :
    byteLength (c :: s) = c.utf8Size + byteLength s := by
  show s.foldl _ (0 + c.utf8Size) = _
  rw [foldl_utf8Size, Nat.zero_add]

@[simp] theorem byteLength_append (s t : List Char) :
    byteLength (s ++ t) = byteLength s + byteLength t := by
  show (s ++ t).foldl _ 0 = _
  rw [List.foldl_append, foldl_utf8Size]
  rfl

/-- A text without bytes has no characters. -/
theorem byteLength_pos {s : List Char} (h : s ≠ []) : 0 < byteLength s := by
  cases s with
  | nil => exact absurd rfl h
  | cons c rest =>
    rw [byteLength_cons]
    exact Nat.lt_add_right _ c.utf8Size_pos

/-- A byte offset at which a character starts, or the text ends. -/
def IsBoundary (text : List Char) (offset : Nat) : Prop :=
  ∃ read left, text = read ++ left ∧ byteLength read = offset

/-- Of two boundaries the earlier one is reached first. -/
theorem append_of_byteLength_lt {read read' left left' : List Char}
    (h : read ++ left = read' ++ left') (hlt : byteLength read < byteLength read') :
    ∃ passed, passed ≠ [] ∧ read' = read ++ passed := by
  rcases List.append_eq_append_iff.1 h with ⟨passed, rfl, -⟩ | ⟨passed, rfl, -⟩
  · refine ⟨passed, ?_, rfl⟩
    intro hnil
    simp [hnil] at hlt
  · rw [byteLength_append] at hlt
    omega

/-! ## Walking over a text -/

namespace Location

/-- Where a text starts. -/
def first : Location := ⟨1, 1⟩

/-- The location after a character that stands at a location. -/
def step (l : Location) (c : Char) : Location :=
  if c = '\n' then ⟨l.line + 1, 1⟩ else ⟨l.line, l.column + 1⟩

/-- The location after a text that starts at a location. -/
def walk (l : Location) (text : List Char) : Location :=
  text.foldl step l

theorem walk_append (l : Location) (s t : List Char) : l.walk (s ++ t) = (l.walk s).walk t :=
  List.foldl_append

theorem before_iff {a b : Location} :
    a.before b = true ↔ a.line < b.line ∨ (a.line = b.line ∧ a.column < b.column) :=
  decide_eq_true_iff

theorem before_trans {a b c : Location} (hab : a.before b) (hbc : b.before c) : a.before c := by
  rw [before_iff] at *
  omega

theorem before_asymm {a b : Location} (h : a.before b) : b.before a = false := by
  rw [Bool.eq_false_iff]
  intro h'
  rw [before_iff] at h h'
  omega

theorem before_step (l : Location) (c : Char) : l.before (l.step c) := by
  rw [before_iff]
  unfold step
  split
  · exact Or.inl (Nat.lt_succ_self _)
  · exact Or.inr ⟨rfl, Nat.lt_succ_self _⟩

/-- A walk that passes a character ends after its start. -/
theorem before_walk {text : List Char} (h : text ≠ []) (l : Location) : l.before (l.walk text) := by
  induction text generalizing l with
  | nil => exact absurd rfl h
  | cons c rest ih =>
    cases rest with
    | nil => exact before_step l c
    | cons d rest => exact before_trans (before_step l c) (ih (List.cons_ne_nil d rest) (l.step c))

theorem walk_line (l : Location) (text : List Char) :
    (l.walk text).line = l.line + text.count '\n' := by
  induction text generalizing l with
  | nil => rfl
  | cons c rest ih =>
    show ((l.step c).walk rest).line = _
    rw [ih, List.count_cons]
    by_cases hc : c = '\n'
    · simp [step, hc]
      omega
    · simp [step, hc]

/-- A walk within a line. -/
theorem walk_of_unbroken {text : List Char} (h : '\n' ∉ text) (l : Location) :
    l.walk text = ⟨l.line, l.column + text.length⟩ := by
  induction text generalizing l with
  | nil => rfl
  | cons c rest ih =>
    rw [List.mem_cons, not_or] at h
    show (l.step c).walk rest = _
    rw [ih h.2, step, if_neg (Ne.symm h.1), List.length_cons]
    simp only [Nat.add_assoc, Nat.add_comm 1]

/-- A walk that ends with a line. -/
theorem walk_of_broken (l : Location) (text : List Char) :
    l.walk (text ++ ['\n']) = ⟨l.line + (text ++ ['\n']).count '\n', 1⟩ := by
  rw [walk_append]
  show Location.mk ((l.walk text).line + 1) 1 = _
  rw [walk_line]
  simp [Nat.add_assoc]

end Location

/-! ## Line starts -/

/-- A text that is empty or ends with a line, so that a line starts after it. -/
def EndsLine (text : List Char) : Prop :=
  text = [] ∨ ∃ s, text = s ++ ['\n']

/-- Every text is one that ends with a line, and the rest of the last line. -/
theorem exists_lastLine (text : List Char) :
    ∃ lines last, text = lines ++ last ∧ EndsLine lines ∧ '\n' ∉ last := by
  induction text with
  | nil => exact ⟨[], [], rfl, Or.inl rfl, List.not_mem_nil⟩
  | cons c rest ih =>
    obtain ⟨lines, last, rfl, hlines, hlast⟩ := ih
    rcases hlines with rfl | ⟨s, rfl⟩
    · by_cases hc : c = '\n'
      · exact ⟨[c], last, rfl, Or.inr ⟨[], by rw [hc]; rfl⟩, hlast⟩
      · refine ⟨[], c :: last, rfl, Or.inl rfl, ?_⟩
        rw [List.mem_cons, not_or]
        exact ⟨Ne.symm hc, hlast⟩
    · exact ⟨c :: (s ++ ['\n']), last, rfl, Or.inr ⟨c :: s, rfl⟩, hlast⟩

theorem Location.walk_of_endsLine {text : List Char} (h : EndsLine text) :
    Location.first.walk text = ⟨text.count '\n' + 1, 1⟩ := by
  rcases h with rfl | ⟨s, rfl⟩
  · rfl
  · rw [walk_of_broken, Nat.add_comm]
    rfl

namespace LineIndex

theorem linesAfter_append (offset : Nat) (s t : List Char) :
    linesAfter offset (s ++ t) =
      (linesAfter offset s).map (fun l => ⟨l.offset, l.following ++ t⟩) ++
        linesAfter (offset + byteLength s) t := by
  induction s generalizing offset with
  | nil => rfl
  | cons c rest ih =>
    simp only [List.cons_append, linesAfter, ih, byteLength_cons, Nat.add_assoc]
    split
    · rfl
    · rfl

theorem length_linesAfter (offset : Nat) (text : List Char) :
    (linesAfter offset text).length = text.count '\n' := by
  induction text generalizing offset with
  | nil => rfl
  | cons c rest ih =>
    rw [linesAfter, List.count_cons]
    split
    · next hc => simp [ih, hc]
    · next hc => simp [ih, hc]

theorem linesAfter_of_unbroken {text : List Char} (h : '\n' ∉ text) (offset : Nat) :
    linesAfter offset text = [] :=
  List.eq_nil_of_length_eq_zero ((length_linesAfter offset text).trans (List.count_eq_zero.2 h))

/-- A line starts after the feed that ends the line before it. -/
theorem offset_of_mem_linesAfter {offset : Nat} {text : List Char} {l : LineStart}
    (h : l ∈ linesAfter offset text) : offset < l.offset ∧ l.offset ≤ offset + byteLength text := by
  induction text generalizing offset with
  | nil => cases h
  | cons c rest ih =>
    have hc := c.utf8Size_pos
    rw [byteLength_cons]
    rw [linesAfter] at h
    split at h
    · rcases List.mem_cons.1 h with rfl | hl
      · refine ⟨Nat.lt_add_of_pos_right hc, ?_⟩
        show offset + c.utf8Size ≤ _
        omega
      · have := ih hl
        omega
    · have := ih h
      omega

/-- The lines of a text, split at one of them. -/
theorem lines_split {lines last : List Char} (hlines : EndsLine lines) (hlast : '\n' ∉ last)
    (left : List Char) :
    ∃ earlier later,
      (ofChars (lines ++ last ++ left)).lines.toList =
        earlier ++ ⟨byteLength lines, last ++ left⟩ :: later ∧
      earlier.length = lines.count '\n' ∧ (∀ l ∈ earlier, l.offset ≤ byteLength lines) ∧
      ∀ l ∈ later, byteLength (lines ++ last) < l.offset := by
  have hlater : linesAfter (byteLength lines) (last ++ left) =
      linesAfter (byteLength (lines ++ last)) left := by
    rw [linesAfter_append, linesAfter_of_unbroken hlast, byteLength_append]
    rfl
  rcases hlines with rfl | ⟨s, rfl⟩
  · refine ⟨[], linesAfter (byteLength last) left, ?_, rfl, ?_, ?_⟩
    · show _ :: linesAfter 0 (last ++ left) = _ :: _
      rw [show 0 = byteLength [] from rfl, hlater]
      rfl
    · intro l hl
      cases hl
    · intro l hl
      exact (offset_of_mem_linesAfter hl).1
  · refine ⟨⟨0, s ++ ['\n'] ++ last ++ left⟩ ::
      (linesAfter 0 s).map (fun l => ⟨l.offset, l.following ++ ('\n' :: (last ++ left))⟩),
      linesAfter (byteLength (s ++ ['\n'] ++ last)) left, ?_, ?_, ?_, ?_⟩
    · have hsplit : s ++ ['\n'] ++ last ++ left = s ++ '\n' :: (last ++ left) := by simp
      show _ :: linesAfter 0 (s ++ ['\n'] ++ last ++ left) = _
      rw [hsplit, linesAfter_append, linesAfter, if_pos rfl, ← hlater, Nat.zero_add,
        byteLength_append]
      rfl
    · simp [length_linesAfter]
    · intro l hl
      rcases List.mem_cons.1 hl with rfl | hl
      · exact Nat.zero_le _
      · obtain ⟨l', hl', rfl⟩ := List.mem_map.1 hl
        have := (offset_of_mem_linesAfter hl').2
        rw [byteLength_append]
        show l'.offset ≤ _
        omega
    · intro l hl
      exact (offset_of_mem_linesAfter hl).1

/-! ## The search -/

/-- The search finds the last of the lines that start at or before the offset, if these are the
first `n` of all lines. -/
theorem search_eq {lines : Array LineStart} {offset n : Nat}
    (hle : ∀ (i : Nat) l, lines[i]? = some l → i < n → l.offset ≤ offset)
    (hlt : ∀ (i : Nat) l, lines[i]? = some l → n ≤ i → offset < l.offset) :
    ∀ fuel low high, low < n → n ≤ high → high ≤ lines.size → high ≤ low + fuel + 1 →
      search lines offset fuel low high = n - 1 := by
  -- the range always holds line n - 1, and the fuel bounds its width
  intro fuel
  induction fuel with
  | zero =>
    intro low high hlow hhigh _ hfuel
    show low = n - 1
    omega
  | succ fuel ih =>
    intro low high hlow hhigh hsize hfuel
    rw [search]
    split
    · omega
    · next hgap =>
      have hmiddle : (low + high) / 2 < lines.size := by omega
      have hline := Array.getElem?_eq_getElem hmiddle
      simp only [hline]
      split
      · next hoff =>
        have : ¬ n ≤ (low + high) / 2 := fun h => absurd (hlt _ _ hline h) (Nat.not_lt.2 hoff)
        exact ih _ _ (by omega) hhigh hsize (by omega)
      · next hoff =>
        have : ¬ (low + high) / 2 < n := fun h => hoff (hle _ _ hline h)
        exact ih _ _ hlow (by omega) (by omega) (by omega)

theorem countChars?_append (s t : List Char) : countChars? (byteLength s) (s ++ t) = some s.length := by
  induction s with
  | nil => cases t <;> rfl
  | cons c rest ih =>
    have hc := c.utf8Size_pos
    obtain ⟨n, hn⟩ : ∃ n, c.utf8Size + byteLength rest = n + 1 :=
      Nat.exists_eq_add_one.2 (Nat.lt_add_right _ hc)
    have hrest : n + 1 - c.utf8Size = byteLength rest := by omega
    rw [byteLength_cons, hn, List.cons_append, countChars?, if_pos (by omega), hrest, ih]
    rfl

/-- Where the line of an offset is found, if the search ends at a line that starts at or before it:
there if the line starts at the offset, and otherwise one before the place for a new line. -/
theorem line?_eq {index : LineIndex} {offset line : Nat} {start : LineStart}
    (hsearch : search index.lines offset index.lines.size 0 index.lines.size = line)
    (hstart : index.lines[line]? = some start) (hle : start.offset ≤ offset) :
    index.line? offset = some line := by
  rcases Nat.eq_or_lt_of_le hle with heq | hlt
  · have hfound : find index.lines offset = .found line := by
      simp only [find, hsearch, hstart, if_pos heq]
    rw [line?, hfound]
  · have habsent : find index.lines offset = .absent (line + 1) := by
      simp only [find, hsearch, hstart, if_neg (Nat.ne_of_lt hlt), if_pos hlt]
    rw [line?, habsent]

/-- The location of a boundary is where a walk over the text before it ends. -/
theorem locate?_append (read left : List Char) :
    (ofChars (read ++ left)).locate? (byteLength read) = some (Location.first.walk read) := by
  obtain ⟨lines, last, rfl, hlines, hlast⟩ := exists_lastLine read
  obtain ⟨earlier, later, hall, hcount, hearlier, hlater⟩ := lines_split hlines hlast left
  generalize hindex : ofChars (lines ++ last ++ left) = index at hall
  have hget : ∀ i : Nat, index.lines[i]? =
      (earlier ++ ⟨byteLength lines, last ++ left⟩ :: later)[i]? := by
    intro i
    rw [← hall, Array.getElem?_toList]
  have hsize : index.lines.size = earlier.length + 1 + later.length := by
    rw [← Array.length_toList, hall, List.length_append, List.length_cons]
    omega
  have hle : ∀ (i : Nat) l, index.lines[i]? = some l → i < earlier.length + 1 →
      l.offset ≤ byteLength (lines ++ last) := by
    intro i l hl hi
    have hmem : l ∈ earlier ++ [⟨byteLength lines, last ++ left⟩] := by
      rw [hget, List.append_cons, List.getElem?_append_left (by simpa using hi)] at hl
      exact List.mem_of_getElem? hl
    rw [byteLength_append]
    rcases List.mem_append.1 hmem with hl | hl
    · exact Nat.le_add_right_of_le (hearlier l hl)
    · rw [List.mem_singleton.1 hl]
      exact Nat.le_add_right _ _
  have hlt : ∀ (i : Nat) l, index.lines[i]? = some l → earlier.length + 1 ≤ i →
      byteLength (lines ++ last) < l.offset := by
    intro i l hl hi
    rw [hget, List.append_cons, List.getElem?_append_right (by simpa using hi)] at hl
    exact hlater l (List.mem_of_getElem? hl)
  -- the search ends at the line that the text before the boundary has reached
  have hsearch : search index.lines (byteLength (lines ++ last)) index.lines.size 0 index.lines.size =
      earlier.length :=
    search_eq hle hlt _ _ _ (Nat.succ_pos _) (by omega) (Nat.le_refl _) (by omega)
  have hstart : index.lines[earlier.length]? = some ⟨byteLength lines, last ++ left⟩ := by
    rw [hget, List.getElem?_append_right (Nat.le_refl _), Nat.sub_self]
    rfl
  have hline := line?_eq hsearch hstart (hle _ _ hstart (Nat.lt_succ_self _))
  have hcolumn : countChars? (byteLength (lines ++ last) - byteLength lines) (last ++ left) =
      some last.length := by
    rw [byteLength_append, Nat.add_sub_cancel_left, countChars?_append]
  rw [Location.walk_append, Location.walk_of_endsLine hlines, Location.walk_of_unbroken hlast,
    ← hcount, Nat.add_comm 1 last.length, locate?, hline]
  simp only [Option.bind_eq_bind, Option.bind_some, hstart, hcolumn]
  rfl

theorem locate_append (read left : List Char) :
    (ofChars (read ++ left)).locate (byteLength read) = Location.first.walk read := by
  rw [locate, locate?_append]
  rfl

/-- Locations of boundaries are in the order of their offsets. -/
theorem before_locate {text : List Char} {a b : Nat} (ha : IsBoundary text a) (hb : IsBoundary text b)
    (h : a < b) : ((ofChars text).locate a).before ((ofChars text).locate b) := by
  obtain ⟨read, left, hread, rfl⟩ := ha
  obtain ⟨read', left', hread', rfl⟩ := hb
  obtain ⟨passed, hpassed, rfl⟩ := append_of_byteLength_lt (hread.symm.trans hread') h
  have ha : (ofChars text).locate (byteLength read) = Location.first.walk read := by
    rw [hread, locate_append]
  have hb : (ofChars text).locate (byteLength (read ++ passed)) =
      (Location.first.walk read).walk passed := by
    rw [hread', locate_append, Location.walk_append]
  rw [ha, hb]
  exact Location.before_walk hpassed _

/-- Comparing boundaries by location is comparing them by offset. -/
theorem before_locate_iff {text : List Char} {a b : Nat} (ha : IsBoundary text a)
    (hb : IsBoundary text b) :
    ((ofChars text).locate a).before ((ofChars text).locate b) = true ↔ a < b := by
  refine ⟨fun h => ?_, before_locate ha hb⟩
  rcases Nat.lt_trichotomy a b with hlt | rfl | hgt
  · exact hlt
  · exact absurd h (Bool.eq_false_iff.1 (Location.before_asymm h))
  · exact absurd h (Bool.eq_false_iff.1 (Location.before_asymm (before_locate hb ha hgt)))

/-! ## Counting from the start -/

end LineIndex

/-- Where a text ends, by counting its line feeds and the characters after the last of them. -/
def Location.endOf (text : List Char) : Location :=
  ⟨1 + text.count '\n', 1 + (text.reverse.takeWhile (fun c => c != '\n')).length⟩

theorem EndsLine.takeWhile_reverse {text : List Char} (h : EndsLine text) :
    text.reverse.takeWhile (fun c => c != '\n') = [] := by
  rcases h with rfl | ⟨s, rfl⟩
  · rfl
  · rw [List.reverse_append]
    exact List.takeWhile_cons_of_neg (by simp)

/-- A walk from the start counts lines and characters. -/
theorem Location.walk_eq_endOf (text : List Char) : first.walk text = endOf text := by
  obtain ⟨lines, last, rfl, hlines, hlast⟩ := exists_lastLine text
  have hlast' : ∀ c ∈ last.reverse, (c != '\n') = true := by
    intro c hc
    rw [bne_iff_ne]
    rintro rfl
    exact hlast (List.mem_reverse.1 hc)
  rw [walk_append, walk_of_endsLine hlines, walk_of_unbroken hlast, endOf, List.count_append,
    List.count_eq_zero.2 hlast, List.reverse_append, List.takeWhile_append_of_pos hlast',
    hlines.takeWhile_reverse]
  simp [Nat.add_comm]

namespace LineIndex

theorem locate_eq_endOf {text read left : List Char} (h : text = read ++ left) :
    (ofChars text).locate (byteLength read) = Location.endOf read := by
  rw [h, locate_append, Location.walk_eq_endOf]

/-- At every boundary of a text, its end included, the location is found, and it is the line and
column that counting from the start gives.  Boundaries have their locations in the order of their
offsets, so that sorting by location is sorting by offset. -/
theorem locate_countsFromStart (source : String) :
    (∀ read left, source.toList = read ++ left →
      (ofChars source.toList).locate? (byteLength read) = some (Location.endOf read)) ∧
    (∀ a b, IsBoundary source.toList a → IsBoundary source.toList b →
      (((ofChars source.toList).locate a).before ((ofChars source.toList).locate b) = true ↔ a < b)) ∧
    ∀ {α : Type} (items : List α) (offset : α → Nat),
      (∀ item ∈ items, IsBoundary source.toList (offset item)) →
      items.mergeSort (fun a b => !((ofChars source.toList).locate (offset b)).before
        ((ofChars source.toList).locate (offset a))) =
      items.mergeSort (fun a b => decide (offset a ≤ offset b)) := by
  refine ⟨?_, fun a b => before_locate_iff, ?_⟩
  · intro read left h
    rw [h, locate?_append, Location.walk_eq_endOf]
  · intro α items offset hitems
    have hsame : ∀ a ∈ items, ∀ b ∈ items,
        (!((ofChars source.toList).locate (offset b)).before
          ((ofChars source.toList).locate (offset a))) = decide (offset a ≤ offset b) := by
      intro a ha b hb
      rw [Bool.eq_iff_iff, Bool.not_eq_true', decide_eq_true_iff, Bool.eq_false_iff, ne_eq,
        before_locate_iff (hitems b hb) (hitems a ha), Nat.not_lt]
    have hmap := List.map_mergeSort (f := id) (s := fun a b => decide (offset a ≤ offset b)) hsame
    rwa [List.map_id, List.map_id] at hmap

/-- In a text with characters of one, two and three bytes: the places after the line feed and at the
end, and a list of places in the order of the text. -/
theorem locate_countsFromStart_twoLines :
    (ofChars "é\n€a".toList).locate? 3 = some ⟨2, 1⟩ ∧
      (ofChars "é\n€a".toList).locate? 7 = some ⟨2, 3⟩ ∧
      ((ofChars "é\n€a".toList).locate 3).before ((ofChars "é\n€a".toList).locate 7) = true ∧
      [7, 3].mergeSort (fun a b => !((ofChars "é\n€a".toList).locate b).before
        ((ofChars "é\n€a".toList).locate a)) = [3, 7] := by
  have htext : "é\n€a".toList = ['é', '\n', '€', 'a'] := by decide
  have hline : IsBoundary "é\n€a".toList 3 := ⟨['é', '\n'], ['€', 'a'], htext, by decide⟩
  have hend : IsBoundary "é\n€a".toList 7 := ⟨['é', '\n', '€', 'a'], [], htext, by decide⟩
  have ⟨hcounts, hbefore, hsorts⟩ := locate_countsFromStart "é\n€a"
  refine ⟨hcounts ['é', '\n'] ['€', 'a'] htext, hcounts ['é', '\n', '€', 'a'] [] htext,
    (hbefore 3 7 hline hend).2 (by decide), ?_⟩
  have hplaces : ∀ place ∈ [7, 3], IsBoundary "é\n€a".toList place := by
    intro place hplace
    simp only [List.mem_cons, List.not_mem_nil, or_false] at hplace
    rcases hplace with rfl | rfl
    · exact hend
    · exact hline
  refine (hsorts [7, 3] id hplaces).trans ?_
  simp [List.mergeSort]

end LineIndex

end GraphQLEngine
