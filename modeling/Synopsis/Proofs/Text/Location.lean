/-
Synopsis.Proofs.Text.Location — a place is shown where it is.

The lines of a text are what its line feeds separate, and each line but the last has a line
feed behind it. An offset lies in a line if it is between the start of the line and its end,
where the line feed stands (`LiesIn`). Every offset of a text lies in one line and no other
(`LiesIn.unique`), so a line and a column say which offset is meant.

`text_pointsAt_offset` says that a location shows just these: the line that the offset lies
in, the column of the offset in it and a caret in that column. The line is found by looking
for the next line feed on either side. Both searches are described by what they leave of the
text: what is before the line adds lines of its own in front (`exists_lines_before`), and
what is behind it adds lines at the end (`exists_lines_behind`).
-/
import Synopsis.Text.Location

namespace Synopsis

namespace Text

/-! ## §1 Where lines start -/

/-- Where the line with the given number starts: behind the lines before it and their line feeds. -/
def lineStart : List Text → Nat → Nat
  | _, 0 => 0
  | [], _ + 1 => 0
  | line :: lines, number + 1 => line.length + 1 + lineStart lines number

theorem lineStart_append (lines rest : List Text) :
    lineStart (lines ++ rest) lines.length = lineStart lines lines.length := by
  induction lines with
  | nil => cases rest <;> rfl
  | cons line lines ih => rw [List.cons_append, List.length_cons, lineStart, ih, lineStart]

theorem lineStart_succ {lines : List Text} {number : Nat} {line : Text}
    (h : lines[number]? = some line) :
    lineStart lines (number + 1) = lineStart lines number + (line.length + 1) := by
  induction lines generalizing number with
  | nil => cases h
  | cons first lines ih =>
    cases number with
    | zero =>
      cases h
      cases lines <;> simp [lineStart]
    | succ number =>
      rw [lineStart, ih h, lineStart]
      omega

theorem lineStart_le_succ (lines : List Text) (number : Nat) :
    lineStart lines number ≤ lineStart lines (number + 1) := by
  induction lines generalizing number with
  | nil => cases number <;> simp [lineStart]
  | cons line lines ih =>
    cases number with
    | zero => exact Nat.zero_le _
    | succ number => exact Nat.add_le_add_left (ih number) _

theorem lineStart_mono (lines : List Text) {number other : Nat} (h : number ≤ other) :
    lineStart lines number ≤ lineStart lines other := by
  induction h with
  | refl => exact Nat.le_refl _
  | step _ ih => exact Nat.le_trans ih (lineStart_le_succ lines _)

/-- A line that came behind the others would start behind the text and a line feed. -/
theorem lineStart_splitOn (text : Text) :
    lineStart (text.splitOn '\n') (text.splitOn '\n').length = text.length + 1 := by
  induction text with
  | nil => rfl
  | cons c text ih =>
    rw [List.splitOn_cons_eq_if_modifyHead]
    -- a line feed puts an empty line in front, any other character makes the first line longer
    split
    · rw [List.length_cons, lineStart, ih, List.length_cons, List.length_nil]
      omega
    · cases hlines : text.splitOn '\n' with
      | nil => exact absurd hlines (List.splitOn_ne_nil _ _)
      | cons line lines =>
        rw [hlines, List.length_cons, lineStart] at ih
        rw [List.modifyHead_cons, List.length_cons, lineStart, List.length_cons, List.length_cons]
        omega

/-- The lines with line feeds between them are the text. -/
theorem ofLines_splitOn (text : Text) : ofLines (text.splitOn '\n') = text := by
  induction text with
  | nil => rfl
  | cons c text ih =>
    rw [List.splitOn_cons_eq_if_modifyHead]
    cases hlines : text.splitOn '\n' with
    | nil => exact absurd hlines (List.splitOn_ne_nil _ _)
    | cons line lines =>
      rw [hlines, ofLines] at ih
      split
      · rename_i hfeed
        rw [ofLines, joinWith, ih, eq_of_beq hfeed]
        rfl
      · rw [List.modifyHead_cons, ofLines, ← ih]
        cases lines <;> rfl

/-- A line stands in the text where it starts. -/
theorem stands_at_lineStart {lines : List Text} {number : Nat} {line : Text}
    (h : lines[number]? = some line) : line <+: (ofLines lines).drop (lineStart lines number) := by
  induction lines generalizing number with
  | nil => cases h
  | cons first lines ih =>
    cases number with
    | zero =>
      cases h
      cases lines with
      | nil => exact List.prefix_refl _
      | cons next lines =>
        rw [lineStart, List.drop_zero, ofLines, joinWith, List.append_assoc]
        exact List.prefix_append _ _
    | succ number =>
      cases lines with
      | nil => cases h
      | cons next lines =>
        rw [lineStart, ofLines, joinWith, ← List.drop_drop]
        have hdrop : (first ++ ['\n'] ++ joinWith ['\n'] (next :: lines)).drop (first.length + 1) =
            ofLines (next :: lines) := List.drop_left' (by simp)
        rw [hdrop]
        exact ih h

/-! ## §2 Line feeds around an offset -/

def lastLine (text : Text) : Text := (text.reverse.takeWhile (· ≠ '\n')).reverse

def firstLine (text : Text) : Text := text.takeWhile (· ≠ '\n')

theorem not_mem_firstLine (text : Text) : '\n' ∉ firstLine text := by
  intro hmem
  have hall := List.all_eq_true.mp List.all_takeWhile '\n' hmem
  simp at hall

theorem not_mem_lastLine (text : Text) : '\n' ∉ lastLine text := by
  rw [lastLine, List.mem_reverse]
  exact not_mem_firstLine text.reverse

/-- A text is its first line, or a line feed stands behind that. -/
theorem firstLine_cases (text : Text) :
    text = firstLine text ∨ ∃ rest, text = firstLine text ++ '\n' :: rest := by
  have hsplit := List.takeWhile_append_dropWhile (p := (· ≠ '\n')) (l := text)
  have hhead := List.head?_dropWhile_not (· ≠ '\n') text
  cases hrest : text.dropWhile (· ≠ '\n') with
  | nil =>
    rw [hrest, List.append_nil] at hsplit
    exact .inl hsplit.symm
  | cons c rest =>
    rw [hrest] at hsplit hhead
    obtain rfl : c = '\n' := by simpa using hhead
    exact .inr ⟨rest, hsplit.symm⟩

/-- A text is its last line, or a line feed stands before that. -/
theorem lastLine_cases (text : Text) :
    text = lastLine text ∨ ∃ earlier, text = earlier ++ '\n' :: lastLine text := by
  rcases firstLine_cases text.reverse with h | ⟨rest, h⟩
  · left
    have hreverse := congrArg List.reverse h
    rwa [List.reverse_reverse] at hreverse
  · right
    have hreverse := congrArg List.reverse h
    rw [List.reverse_reverse, List.reverse_append, List.reverse_cons, List.append_assoc]
      at hreverse
    exact ⟨rest.reverse, hreverse⟩

/-- A text brings lines of its own before whatever stands behind it, and these end where its last
line starts. -/
theorem exists_lines_before (text : Text) :
    ∃ lines, lineStart lines lines.length + (lastLine text).length = text.length ∧
      ∀ rest, (text ++ rest).splitOn '\n' = lines ++ (lastLine text ++ rest).splitOn '\n' := by
  rcases lastLine_cases text with h | ⟨earlier, h⟩
  -- without a line feed the text is only the beginning of a line
  · refine ⟨[], ?_, fun rest => ?_⟩
    · rw [← h]
      exact Nat.zero_add _
    · rw [← h]
      rfl
  · refine ⟨earlier.splitOn '\n', ?_, fun rest => ?_⟩
    · have hlength := congrArg List.length h
      rw [List.length_append, List.length_cons] at hlength
      rw [lineStart_splitOn, hlength]
      omega
    · have hrest : text ++ rest = earlier ++ '\n' :: (lastLine text ++ rest) := calc
        text ++ rest = (earlier ++ '\n' :: lastLine text) ++ rest := congrArg (· ++ rest) h
        _ = earlier ++ '\n' :: (lastLine text ++ rest) := List.append_assoc _ _ _
      rw [hrest, List.splitOn_append_cons_self]

/-- A text brings lines of its own behind whatever line stands before it. -/
theorem exists_lines_behind (text : Text) :
    ∃ lines, ∀ front, '\n' ∉ front →
      (front ++ text).splitOn '\n' = (front ++ firstLine text) :: lines := by
  have hline {front : Text} (hfront : '\n' ∉ front) : '\n' ∉ front ++ firstLine text := by
    rw [List.mem_append]
    exact fun hmem => hmem.elim hfront (not_mem_firstLine text)
  rcases firstLine_cases text with h | ⟨rest, h⟩
  · refine ⟨[], fun front hfront => ?_⟩
    rw [← List.splitOn_eq_singleton (hline hfront), ← h]
  · refine ⟨rest.splitOn '\n', fun front hfront => ?_⟩
    have hfirst : front ++ text = (front ++ firstLine text) ++ '\n' :: rest := by
      rw [List.append_assoc, ← h]
    rw [hfirst, List.splitOn_append_cons_self_of_not_mem (hline hfront)]

/-- A line without line feeds stands before the other lines. -/
theorem splitOn_ofLines {line next : Text} (lines : List Text) (h : '\n' ∉ line) :
    (ofLines (line :: next :: lines)).splitOn '\n' =
      line :: (ofLines (next :: lines)).splitOn '\n' := by
  rw [ofLines, joinWith, List.append_assoc, List.singleton_append,
    List.splitOn_append_cons_self_of_not_mem h]
  rfl

theorem exists_splitOn_ofLines {line : Text} (h : '\n' ∉ line) (lines : List Text) :
    ∃ rest, (ofLines (line :: lines)).splitOn '\n' = line :: rest := by
  cases lines with
  | nil => exact ⟨[], List.splitOn_eq_singleton h⟩
  | cons next lines => exact ⟨_, splitOn_ofLines lines h⟩

theorem not_mem_ofNat (n : Nat) : '\n' ∉ ofNat n := by
  intro hmem
  have hdigit := Nat.isDigit_of_mem_toDigits (by decide) (by decide) hmem
  exact absurd hdigit (by decide)

end Text

namespace Location

open Text (lineStart lastLine firstLine)

/-! ## §3 The line of an offset -/

/-- The offset lies in the line with the given number: from its start on, and no further than its
end. A line feed belongs to the line that it ends. -/
structure LiesIn (source : Text) (offset number : Nat) (line : Text) : Prop where
  getElem?_eq : (source.splitOn '\n')[number]? = some line
  start_le : lineStart (source.splitOn '\n') number ≤ offset
  le_end : offset ≤ lineStart (source.splitOn '\n') number + line.length

/-- A line ends before every later one starts. -/
theorem LiesIn.le_of_liesIn {source : Text} {offset number other : Nat} {line line' : Text}
    (h : LiesIn source offset number line) (h' : LiesIn source offset other line') :
    other ≤ number := by
  refine Nat.le_of_not_lt fun hlt => ?_
  have hmono := Text.lineStart_mono (source.splitOn '\n') (Nat.succ_le_of_lt hlt)
  rw [Text.lineStart_succ h.getElem?_eq] at hmono
  have hstart := h'.start_le
  have hend := h.le_end
  omega

/-- An offset lies in one line only. -/
theorem LiesIn.unique {source : Text} {offset number other : Nat} {line line' : Text}
    (h : LiesIn source offset number line) (h' : LiesIn source offset other line') :
    other = number ∧ line' = line := by
  obtain rfl : other = number := Nat.le_antisymm (h.le_of_liesIn h') (h'.le_of_liesIn h)
  exact ⟨rfl, Option.some.inj (h'.getElem?_eq.symm.trans h.getElem?_eq)⟩

section Place

variable (place : Location)

theorem offset_le : place.offset ≤ place.source.length := Nat.min_le_right _ _

/-- The offset is the position, or the end of the text that is nearest to it. -/
theorem offset_eq : (place.offset : Int) = max 0 (min place.position place.source.length) := by
  unfold offset
  omega

theorem before_eq : place.before = lastLine (place.source.take place.offset) := rfl

/-- The offset lies in the line that is shown, and what is before it in the line is what separates
it from its start. -/
theorem exists_liesIn_line :
    ∃ number, LiesIn place.source place.offset number place.line ∧
      lineStart (place.source.splitOn '\n') number + place.before.length = place.offset := by
  obtain ⟨earlier, hstart, hearlier⟩ :=
    Text.exists_lines_before (place.source.take place.offset)
  obtain ⟨later, hlater⟩ := Text.exists_lines_behind (place.source.drop place.offset)
  rw [← before_eq] at hstart hearlier
  rw [List.length_take, Nat.min_eq_left place.offset_le] at hstart
  have hlines : place.source.splitOn '\n' = earlier ++ place.line :: later := by
    rw [← List.take_append_drop place.offset place.source, hearlier,
      hlater place.before (Text.not_mem_lastLine _)]
    rfl
  have hline : lineStart (place.source.splitOn '\n') earlier.length + place.before.length =
      place.offset := by
    rw [hlines, Text.lineStart_append, hstart]
  refine ⟨earlier.length, ⟨?_, ?_, ?_⟩, hline⟩
  · rw [hlines]
    simp
  · omega
  · have hlength : place.line.length = place.before.length + place.behind.length :=
      List.length_append
    omega

/-- The lines that show a place are lines of the text that shows it. -/
theorem exists_splitOn_text :
    ∃ rest, place.text.splitOn '\n' =
      ("  at column ".toList ++ Text.ofNat place.column) ::
      ("    ".toList ++ place.line) ::
      ("    ".toList ++ List.replicate (place.column - 1) ' ' ++ ['^']) :: rest := by
  have hcolumn : '\n' ∉ "  at column ".toList ++ Text.ofNat place.column := by
    rw [List.mem_append]
    exact fun hmem => hmem.elim (by decide) (Text.not_mem_ofNat _)
  have hline : '\n' ∉ "    ".toList ++ place.line := by
    simp only [List.mem_append, line]
    rintro (hmem | hmem | hmem)
    · exact absurd hmem (by decide)
    · exact Text.not_mem_lastLine _ hmem
    · exact Text.not_mem_firstLine _ hmem
  have hcaret : '\n' ∉ "    ".toList ++ List.replicate (place.column - 1) ' ' ++ ['^'] := by
    simp
  -- what is shown of the token stands behind these three lines
  have hlines : place.lines =
      ("  at column ".toList ++ Text.ofNat place.column) ::
      ("    ".toList ++ place.line) ::
      ("    ".toList ++ List.replicate (place.column - 1) ' ' ++ ['^']) :: place.lines.drop 3 := rfl
  obtain ⟨rest, hrest⟩ := Text.exists_splitOn_ofLines hcaret (place.lines.drop 3)
  refine ⟨rest, ?_⟩
  rw [text, hlines, Text.splitOn_ofLines _ hcolumn, Text.splitOn_ofLines _ hline, hrest]

end Place

/-- **Locations.** The offset of a location is its position, or the end of the text that is nearest to
it. It lies in one of the lines that line feeds separate, and in no other. The location is shown in
lines of which the first says the column, the second is this line, indented, and the third has a
caret in that column below it. The columns count from the offset where the line starts: both
together give the offset back. -/
theorem text_pointsAt_offset (place : Location) :
    (place.offset : Int) = max 0 (min place.position place.source.length) ∧
    ∃ number line, LiesIn place.source place.offset number line ∧
      (∀ other line', LiesIn place.source place.offset other line' →
        other = number ∧ line' = line) ∧
      line <+: place.source.drop (lineStart (place.source.splitOn '\n') number) ∧
      (∃ rest, place.text.splitOn '\n' =
        ("  at column ".toList ++ Text.ofNat place.column) ::
        ("    ".toList ++ line) ::
        ("    ".toList ++ List.replicate (place.column - 1) ' ' ++ ['^']) :: rest) ∧
      place.column = place.offset - lineStart (place.source.splitOn '\n') number + 1 ∧
      lineStart (place.source.splitOn '\n') number + (place.column - 1) = place.offset := by
  obtain ⟨number, hlies, hstart⟩ := place.exists_liesIn_line
  have hstands := Text.stands_at_lineStart hlies.getElem?_eq
  rw [Text.ofLines_splitOn] at hstands
  have hcolumn : place.column - 1 = place.before.length := rfl
  refine ⟨place.offset_eq, number, place.line, hlies, fun other line' => hlies.unique, hstands,
    place.exists_splitOn_text, ?_, ?_⟩
  · rw [column]
    omega
  · rw [hcolumn, hstart]

/-- The line feed behind an empty line belongs to that line. -/
theorem text_pointsAt_empty_line :
    let place : Location := ⟨"ab\n\ncd (".toList, 3, some "(".toList⟩
    LiesIn place.source 3 1 [] ∧
      (∃ rest, place.text.splitOn '\n' =
        "  at column 1".toList :: "    ".toList :: "    ^".toList :: rest) ∧
      lineStart (place.source.splitOn '\n') 1 + (place.column - 1) = 3 := by
  intro place
  have hlies : LiesIn place.source 3 1 [] := ⟨by decide, by decide, by decide⟩
  obtain ⟨-, number, line, -, hunique, -, ⟨rest, htext⟩, -, hoffset⟩ := text_pointsAt_offset place
  obtain ⟨rfl, rfl⟩ := hunique 1 [] hlies
  have hcolumn : "  at column ".toList ++ Text.ofNat place.column = "  at column 1".toList := by
    decide
  have hcaret : "    ".toList ++ List.replicate (place.column - 1) ' ' ++ ['^'] =
      "    ^".toList := by decide
  rw [hcolumn, hcaret] at htext
  exact ⟨hlies, ⟨rest, htext⟩, hoffset⟩

end Location

end Synopsis
