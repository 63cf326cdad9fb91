/-
Synopsis.Proofs.Line.Window — reading a part of a line.

A window inside a line shows a part of it, and nothing outside the window is looked at: not
behind a backslash or a hyphen at its end, and not for the quote that would close a word. So
reading the window is reading the part as a line of its own, only that every offset is
greater by the one at which the window starts (`read_window`).

The reader goes through the window and through the part in step. This is said of each piece
of an element, with a cursor that stands in the part and the one that stands in the window
at the same character (`Cursor.shift`), and then of all elements by induction on the run
through the part.
-/
import Synopsis.Proofs.Line.Whole

namespace Synopsis

/-! ## §1 Greater offsets -/

namespace LineError

def shift (n : Nat) : LineError → LineError
  | .unclosedQuote position quote => .unclosedQuote (position + n) quote
  | .missingKey position => .missingKey (position + n)

@[simp] theorem position_shift (error : LineError) (n : Nat) :
    (error.shift n).position = error.position + n := by
  cases error <;> rfl

@[simp] theorem reason_shift (error : LineError) (n : Nat) :
    (error.shift n).reason = error.reason := by
  cases error <;> rfl

end LineError

def LineFailure.shift (n : Nat) : LineFailure → LineFailure
  | .malformed error => .malformed (error.shift n)
  | .fault cause => .fault cause

namespace Line

def Word.shift (n : Nat) (word : Word) : Word :=
  { word with start := word.start + n, stop := word.stop + n }

def Element.shift (n : Nat) : Element → Element
  | .word found => .word (found.shift n)
  | .flag key value => .flag key value

def Parsed.shift (n : Nat) (parsed : Parsed) : Parsed :=
  { parsed with words := parsed.words.map (Word.shift n) }

def Cursor.shift (n : Nat) (cursor : Cursor) : Cursor :=
  { cursor with position := cursor.position + n }

@[simp] theorem Cursor.position_shift (n : Nat) (cursor : Cursor) :
    (cursor.shift n).position = cursor.position + n := rfl

@[simp] theorem Cursor.rest_shift (n : Nat) (cursor : Cursor) :
    (cursor.shift n).rest = cursor.rest := rfl

@[simp] theorem Cursor.excess_shift (n : Nat) (cursor : Cursor) :
    (cursor.shift n).excess = cursor.excess := rfl

/-- What was read, and where it was read to, so many offsets later. -/
def shifted {α : Type} (n : Nat) (f : α → α) (result : Except LineFailure (α × Cursor)) :
    Except LineFailure (α × Cursor) :=
  (result.map fun (a, next) => (f a, next.shift n)).mapError (LineFailure.shift n)

theorem shift_move (n : Nat) (cursor : Cursor) (width : Nat) (rest : Text) :
    (cursor.shift n).move width rest = (cursor.move width rest).shift n := by
  simp only [Cursor.shift, Cursor.move, Cursor.mk.injEq, and_self, and_true]
  omega

theorem wordsOf_map_shift (n : Nat) (found : List Element) :
    wordsOf (found.map (Element.shift n)) = (wordsOf found).map (Word.shift n) := by
  induction found with
  | nil => rfl
  | cons element found ih =>
    cases element with
    | word word => simpa [wordsOf, Element.shift] using ih
    | flag key value => simpa [wordsOf, Element.shift] using ih

theorem flagsOf_map_shift (n : Nat) (found : List Element) :
    flagsOf (found.map (Element.shift n)) = flagsOf found := by
  induction found with
  | nil => rfl
  | cons element found ih =>
    cases element with
    | word word => simpa [flagsOf, Element.shift] using ih
    | flag key value => simpa [flagsOf, Element.shift] using ih

/-! ## §2 Pieces of elements -/

/-- The window shows this part of its text, which begins at the offset `n`. -/
structure Shows (w : Window) (n : Nat) (part : Text) : Prop where
  start_eq : w.start = n
  fits : n + part.length ≤ w.source.length
  chars_eq : w.chars = part
  excess_eq : w.excess = 0

/-- A window inside a text shows the span between its ends. -/
theorem shows_slice {line : Text} {start stop : Nat} (horder : start ≤ stop)
    (hstop : stop ≤ line.length) : Shows ⟨line, start, stop⟩ start (slice line start stop) := by
  have hslice : slice line start stop = (line.take stop).drop start := by
    have hclamp {offset : Nat} (h : offset ≤ line.length) :
        clampOffset line.length offset = offset := by
      rw [clampOffset, if_neg (by omega)]
      omega
    rw [slice, hclamp hstop, hclamp (Nat.le_trans horder hstop)]
  refine ⟨rfl, ?_, ?_, Window.excess_inside hstop⟩
  · rw [hslice, List.length_drop, List.length_take]
    show start + (min stop line.length - start) ≤ line.length
    omega
  · rw [Window.chars_inside hstop, hslice, List.drop_take]

section Pieces

variable {w : Window} {n : Nat} {part : Text} {cursor : Cursor}

/-- A stretch means the same in the window as in the part. -/
theorem meaning?_shift (hw : Shows w n part) {start stop : Int} (hstart : 0 ≤ start)
    (hstop : stop ≤ part.length) (raw : Text) :
    w.meaning? (start + n) (stop + n) raw = (Window.whole part).meaning? start stop raw := by
  have hfits := hw.fits
  have hpart : 0 ≤ start ∧ stop ≤ ((Window.whole part).source.length : Int) := ⟨hstart, hstop⟩
  rw [Window.meaning?, Window.meaning?, if_pos hpart, if_pos (by omega)]

theorem takeQuoted_shift (hw : Shows w n part) (h : cursor.Inside part) {quote : Char}
    {rest : Text} (hrest : cursor.rest = quote :: rest) :
    takeQuoted w (cursor.shift n) quote rest =
      shifted n (Word.shift n) (takeQuoted (.whole part) cursor quote rest) := by
  have hadd := h.position_add
  have hnonneg := h.position_nonneg
  rw [hrest, List.length_cons] at hadd
  unfold takeQuoted
  rw [Cursor.excess_shift]
  cases hclosing : untilDelimiter (· == quote) cursor.excess rest with
  | unreadable => rfl
  | absent => rfl
  | found raw after =>
    obtain ⟨c, -, happend⟩ := untilDelimiter_append hclosing
    have hlength := congrArg List.length happend
    rw [List.length_append, List.length_cons] at hlength
    have hword : w.meaning? (cursor.position + 1 + n) (cursor.position + 1 + raw.length + n) raw =
        (Window.whole part).meaning? (cursor.position + 1) (cursor.position + 1 + raw.length) raw :=
      meaning?_shift hw (by omega) (by omega) raw
    have hstart : cursor.position + n + 1 = cursor.position + 1 + n := by omega
    have hstop : cursor.position + 1 + n + raw.length = cursor.position + 1 + raw.length + n := by
      omega
    simp only [Cursor.position_shift, shift_move, hstart, hstop, hword]
    rw [if_neg (by omega), if_neg (by omega)]
    rfl

theorem takePlain_shift (hw : Shows w n part) (h : cursor.Inside part) {front rest : Text}
    (hrest : cursor.rest = front ++ rest) :
    takePlain w (cursor.shift n) front rest =
      shifted n (Word.shift n) (takePlain (.whole part) cursor front rest) := by
  have hadd := h.position_add
  have hexcess := h.excess_eq
  rw [hrest, List.length_append] at hadd
  unfold takePlain
  rw [Cursor.excess_shift]
  cases htail : takeWord cursor.excess rest with
  | none => rfl
  | some tail =>
    have hoverrun := overrun_le_of_takeWord htail
    have hlength := congrArg List.length (takeWord_append htail)
    rw [List.length_append] at hlength
    have hwidth : (tail.after front).width = front.length + tail.raw.length := by
      simp only [Stretch.width, Stretch.after, List.length_append]
      omega
    have hword : w.meaning? (cursor.position + n) (cursor.position + (tail.after front).width + n)
          (tail.after front).raw =
        (Window.whole part).meaning? cursor.position
          (cursor.position + (tail.after front).width) (tail.after front).raw :=
      meaning?_shift hw h.position_nonneg (by omega) _
    have hstop : cursor.position + n + (tail.after front).width =
        cursor.position + (tail.after front).width + n := by
      omega
    simp only [Cursor.position_shift, shift_move, hstop, hword]
    rfl

theorem takeQuotedOrPlain_shift (hw : Shows w n part) (h : cursor.Inside part) :
    takeQuotedOrPlain w (cursor.shift n) =
      shifted n (Word.shift n) (takeQuotedOrPlain (.whole part) cursor) := by
  unfold takeQuotedOrPlain
  rw [Cursor.rest_shift]
  split
  · rename_i hrest
    exact takePlain_shift hw h hrest
  · rename_i c rest hrest
    split
    · exact takeQuoted_shift hw h hrest
    · exact takePlain_shift hw h hrest

/-- A value has no offsets, only the cursor behind it has. -/
theorem takeValue_shift (hw : Shows w n part) (h : cursor.Inside part) :
    takeValue w (cursor.shift n) = shifted n id (takeValue (.whole part) cursor) := by
  unfold takeValue
  rw [takeQuotedOrPlain_shift hw h]
  cases takeQuotedOrPlain (.whole part) cursor with
  | error failure => rfl
  | ok taken =>
    obtain ⟨⟨start, stop, text⟩, next⟩ := taken
    cases text <;> rfl

theorem takeFlag_shift (hw : Shows w n part) (h : cursor.Inside part) {rest : Text} {c d : Char}
    (hrest : cursor.rest = c :: d :: rest) :
    takeFlag w (cursor.shift n) rest =
      shifted n (Element.shift n) (takeFlag (.whole part) cursor rest) := by
  have hnonneg := h.position_nonneg
  have hkey (stop : Int) (raw : Text) : w.cut (cursor.position + n + 2) stop raw = raw :=
    if_neg fun hbefore => absurd hbefore.1 (by omega)
  unfold takeFlag
  simp only [shift_move, cut_of_inside h, Cursor.position_shift, hkey]
  generalize hbehind : cursor.move ((rest.takeWhile isKeyChar).length + 2)
    (rest.dropWhile isKeyChar) = behind
  have hinside : behind.Inside part := hbehind ▸ h.behindKey hrest
  rw [show (behind.shift n).isStuck = behind.isStuck from rfl, Cursor.rest_shift]
  split
  · rfl
  · split
    · rfl
    · split
      · rename_i after hafter
        have hvalue : (behind.move 1 after).Inside part := by
          refine hinside.move ?_
          rw [hafter, List.length_cons]
          omega
        rw [takeValue_shift hw hvalue]
        cases takeValue (.whole part) (behind.move 1 after) with
        | error failure => rfl
        | ok taken => rfl
      · rfl

/-- A word that was taken so many offsets later is the same element so many offsets later. -/
theorem map_asElement_shifted (result : Except LineFailure (Word × Cursor)) :
    (shifted n (Word.shift n) result).map asElement =
      shifted n (Element.shift n) (result.map asElement) := by
  cases result <;> rfl

theorem takeElement_shift (hw : Shows w n part) (h : cursor.Inside part) {c : Char} {rest : Text}
    (hrest : cursor.rest = c :: rest) :
    takeElement w (cursor.shift n) c rest =
      shifted n (Element.shift n) (takeElement (.whole part) cursor c rest) := by
  have hnonneg := h.position_nonneg
  have hplain : (takePlain w (cursor.shift n) [c] rest).map asElement =
      shifted n (Element.shift n) ((takePlain (.whole part) cursor [c] rest).map asElement) := by
    rw [takePlain_shift hw h hrest, map_asElement_shifted]
  unfold takeElement
  split
  · have hquoted := takeQuoted_shift hw h hrest
    exact (congrArg (Except.map asElement) hquoted).trans (map_asElement_shifted _)
  · split
    · have hsees : seesHyphens w (cursor.shift n).position = true := by
        simp [seesHyphens, Cursor.shift, show 0 ≤ cursor.position + (n : Int) by omega]
      have hsees' : seesHyphens (.whole part) cursor.position = true := by
        simp [seesHyphens, hnonneg]
      rw [if_pos hsees, if_pos hsees']
      exact takeFlag_shift hw h hrest
    · exact hplain

/-! ## §3 Lines -/

/-- The elements in the window are those in the part. The induction is on the run through the
part. -/
theorem elements_shift (hw : Shows w n part) (h : cursor.Inside part) :
    elements w (cursor.shift n) =
      ((elements (.whole part) cursor).map (List.map (Element.shift n))).mapError
        (LineFailure.shift n) := by
  fun_induction elements (.whole part) cursor with
  | case1 cursor hrest hexcess => exact elements_of_end hrest hexcess
  | case2 cursor hrest hexcess => exact absurd h.excess_eq hexcess
  | case3 cursor c rest hrest hblank ih =>
    have hmove : (cursor.move 1 rest).Inside part := by
      refine h.move ?_
      rw [hrest, List.length_cons]
      omega
    have hskip : elements w (cursor.shift n) = elements w ((cursor.shift n).move 1 rest) :=
      elements_of_blank hrest hblank
    rw [hskip, shift_move]
    exact ih hmove
  | case4 cursor c rest hrest hblank failure htaken =>
    have hshift := takeElement_shift hw h hrest
    rw [htaken] at hshift
    exact elements_of_failed hrest (by simpa using hblank) hshift
  | case5 cursor c rest hrest hblank element next htaken ih =>
    have hshift := takeElement_shift hw h hrest
    rw [htaken] at hshift
    have hinside := (inside_of_takeElement h hrest htaken).2
    have hgoOn : elements w (cursor.shift n) =
        (elements w (next.shift n)).map (element.shift n :: ·) :=
      elements_of_taken hrest (by simpa using hblank) hshift
    rw [hgoOn, ih hinside]
    cases elements (.whole part) next <;> rfl

/-- The words in the window are those in the part, so many offsets later, and the flags are the
same. -/
theorem read_shift (hw : Shows w n part) :
    read w = ((read (.whole part)).map (Parsed.shift n)).mapError (LineFailure.shift n) := by
  have hbegin : Cursor.ofWindow w = (Cursor.ofWindow (.whole part)).shift n := by
    simp only [Cursor.ofWindow, Cursor.shift, hw.start_eq, hw.chars_eq, hw.excess_eq,
      Window.chars_whole, Window.excess_whole, Cursor.mk.injEq, and_self, and_true]
    simp [Window.whole]
  unfold read
  rw [hbegin, elements_shift hw (inside_ofWindow part)]
  cases elements (.whole part) (.ofWindow (.whole part)) with
  | error failure => rfl
  | ok found =>
    simp only [Except.map, Except.mapError, wordsOf_map_shift, flagsOf_map_shift, Parsed.shift]

end Pieces

end Line

end Synopsis
