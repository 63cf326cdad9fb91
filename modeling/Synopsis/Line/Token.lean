/-
Synopsis.Line.Token — the words and flags of a command line.

Blanks separate the elements of a line. An element that begins with a quote goes
to the matching quote, and one that begins with two hyphens is a flag, with a
value if its key ends at `=`; anything else is a plain word up to the next blank.
A backslash keeps the character after it from ending an element. Words count by
their position, flags may stand anywhere.

A line is read through a window. `takeElement` reads one element and leaves an end
of the text that was left (`suffix_of_takeElement`); `elements` goes on to the end of
the window.
-/
import Synopsis.Line.Error
import Synopsis.Line.Flags
import Synopsis.Text.Scan

namespace Synopsis

namespace Line

/-! ## §1 Elements -/

/-- A word with its span, quotes not included, and the text it means. The text is missing if
reading the span leaves the line. -/
structure Word where
  start : Int
  stop : Int
  text : Option Text
deriving DecidableEq

/-- An element of a command line. -/
inductive Element where
  | word (word : Word)
  | flag (key : Text) (value : Option Text)
deriving DecidableEq

/-- A line that has been read. -/
structure Parsed where
  words : List Word
  flags : FlagTable

/-- How far a window has been read: the offset, the characters from there on, and the number of
unreadable offsets after them. -/
structure Cursor where
  position : Int
  rest : Text
  excess : Nat

namespace Cursor

def ofWindow (w : Window) : Cursor := ⟨w.start, w.chars, w.excess⟩

def move (cursor : Cursor) (width : Nat) (rest : Text) : Cursor :=
  { cursor with position := cursor.position + width, rest := rest }

/-- The window goes on, but the next offset names no character. -/
def isStuck (cursor : Cursor) : Bool := cursor.rest.isEmpty && cursor.excess != 0

end Cursor

def isQuote (c : Char) : Bool := c == '"' || c == '\x27'

/-- Two hyphens begin a flag if both are in the part of the line that the window and the
position name; it ends with the line when the position is counted from the end and the window
is not. -/
def seesHyphens (w : Window) (position : Int) : Bool :=
  let size : Int := w.source.length
  0 ≤ position || w.stop < 0 || position + size + 2 ≤ min w.stop size

/-! ## §2 Pieces of elements -/

/-- The text up to the quote that closes it, and the cursor behind that. The cursor given is at
the opening quote, and `rest` are the characters after it. A quote at an offset below zero closes
nothing. -/
def takeQuoted (w : Window) (cursor : Cursor) (quote : Char) (rest : Text) :
    Except LineFailure (Word × Cursor) :=
  match untilDelimiter (· == quote) cursor.excess rest with
  | .unreadable => .error (.fault .outOfRange)
  | .absent => .error (.malformed (.unclosedQuote cursor.position quote))
  | .found raw after =>
    let start := cursor.position + 1
    let stop := start + raw.length
    if stop < 0 then .error (.malformed (.unclosedQuote cursor.position quote))
    else .ok (⟨start, stop, w.meaning? start stop raw⟩, cursor.move (raw.length + 2) after)

/-- The word that begins with the characters `front` and goes on in `rest` to the next blank.
The cursor given is before `front`. -/
def takePlain (w : Window) (cursor : Cursor) (front rest : Text) :
    Except LineFailure (Word × Cursor) :=
  match takeWord cursor.excess rest with
  | none => .error (.fault .outOfRange)
  | some tail =>
    let s := tail.after front
    let stop := cursor.position + s.width
    .ok (⟨cursor.position, stop, w.meaning? cursor.position stop s.raw⟩,
      { cursor.move s.width s.rest with excess := cursor.excess - s.overrun })

/-- A word at the cursor, quoted or plain. A plain one may be empty. -/
def takeQuotedOrPlain (w : Window) (cursor : Cursor) : Except LineFailure (Word × Cursor) :=
  match cursor.rest with
  | [] => takePlain w cursor [] []
  | c :: rest => if isQuote c then takeQuoted w cursor c rest else takePlain w cursor [] (c :: rest)

/-- A flag's value, which may be quoted. It has to be readable at once. -/
def takeValue (w : Window) (cursor : Cursor) : Except LineFailure (Text × Cursor) :=
  match takeQuotedOrPlain w cursor with
  | .error failure => .error failure
  | .ok (word, next) =>
    match word.text with
    | none => .error (.fault .outOfRange)
    | some text => .ok (text, next)

def isKeyChar (c : Char) : Bool := !isBlank c && c != '='

/-- The flag after two hyphens. The cursor given is at the hyphens, and `rest` are the
characters after them. -/
def takeFlag (w : Window) (cursor : Cursor) (rest : Text) : Except LineFailure (Element × Cursor) :=
  let raw := rest.takeWhile isKeyChar
  let start := cursor.position + 2
  let key := w.cut start (start + raw.length) raw
  let behind := cursor.move (raw.length + 2) (rest.dropWhile isKeyChar)
  if behind.isStuck then .error (.fault .outOfRange)
  else if raw.isEmpty then .error (.malformed (.missingKey cursor.position))
  else
    match behind.rest with
    | '=' :: rest =>
      (takeValue w (behind.move 1 rest)).map fun (value, next) => (.flag key (some value), next)
    | _ => .ok (.flag key none, behind)

/-! ## §3 Steps -/

/-- What stands at a position that is not blank: a quoted word, a flag or a plain word. -/
def takeElement (w : Window) (cursor : Cursor) (c : Char) (rest : Text) :
    Except LineFailure (Element × Cursor) :=
  if isQuote c then
    (takeQuoted w cursor c rest).map fun (word, next) => (.word word, next)
  else
    match c, rest with
    | '-', '-' :: after =>
      if seesHyphens w cursor.position then takeFlag w cursor after
      else (takePlain w cursor [c] rest).map fun (word, next) => (.word word, next)
    | _, _ => (takePlain w cursor [c] rest).map fun (word, next) => (.word word, next)

theorem suffix_of_takeQuoted {w : Window} {cursor next : Cursor} {quote : Char} {rest : Text}
    {word : Word} (h : takeQuoted w cursor quote rest = .ok (word, next)) : next.rest <:+ rest := by
  unfold takeQuoted at h
  split at h
  · cases h
  · cases h
  · rename_i raw after hfound
    obtain ⟨c, -, happend⟩ := untilDelimiter_append hfound
    simp only at h
    split at h
    · cases h
    · cases h
      exact ⟨raw ++ [c], by simpa [Cursor.move] using happend⟩

theorem suffix_of_takePlain {w : Window} {cursor next : Cursor} {front rest : Text}
    {word : Word} (h : takePlain w cursor front rest = .ok (word, next)) : next.rest <:+ rest := by
  unfold takePlain at h
  split at h
  · cases h
  · rename_i tail htail
    cases h
    exact ⟨tail.raw, takeWord_append htail⟩

theorem suffix_of_takeQuotedOrPlain {w : Window} {cursor next : Cursor} {word : Word}
    (h : takeQuotedOrPlain w cursor = .ok (word, next)) : next.rest <:+ cursor.rest := by
  unfold takeQuotedOrPlain at h
  split at h
  · rename_i hrest
    rw [hrest]
    exact suffix_of_takePlain h
  · rename_i c rest hrest
    rw [hrest]
    split at h
    · exact (suffix_of_takeQuoted h).trans (List.suffix_cons c rest)
    · exact suffix_of_takePlain h

theorem suffix_of_takeValue {w : Window} {cursor next : Cursor} {value : Text}
    (h : takeValue w cursor = .ok (value, next)) : next.rest <:+ cursor.rest := by
  unfold takeValue at h
  split at h
  · cases h
  · rename_i htaken
    split at h
    · cases h
    · cases h
      exact suffix_of_takeQuotedOrPlain htaken

theorem suffix_of_takeFlag {w : Window} {cursor next : Cursor} {rest : Text}
    {element : Element} (h : takeFlag w cursor rest = .ok (element, next)) : next.rest <:+ rest := by
  have hdrop : rest.dropWhile isKeyChar <:+ rest := List.dropWhile_suffix isKeyChar
  unfold takeFlag at h
  simp only at h
  split at h
  · cases h
  · split at h
    · cases h
    · split at h
      · rename_i after hafter
        cases hv : takeValue w
            ((cursor.move ((rest.takeWhile isKeyChar).length + 2) (rest.dropWhile isKeyChar)).move 1
              after) with
        | error failure => rw [hv] at h; cases h
        | ok found =>
          rw [hv] at h
          cases h
          have hvalue : found.2.rest <:+ after := suffix_of_takeValue hv
          have hsign : after <:+ rest.dropWhile isKeyChar := ⟨['='], hafter.symm⟩
          exact (hvalue.trans hsign).trans hdrop
      · cases h
        exact hdrop

/-- What is left behind an element ends the text that was left before. -/
theorem suffix_of_takeElement {w : Window} {cursor next : Cursor} {c : Char} {rest : Text}
    {element : Element} (h : takeElement w cursor c rest = .ok (element, next)) :
    next.rest <:+ rest := by
  have hplain : ∀ {found}, (takePlain w cursor [c] rest).map
      (fun (word, next) => (Element.word word, next)) = .ok found → found.2.rest <:+ rest := by
    intro found hf
    cases hp : takePlain w cursor [c] rest with
    | error failure => rw [hp] at hf; cases hf
    | ok taken => rw [hp] at hf; cases hf; exact suffix_of_takePlain hp
  unfold takeElement at h
  split at h
  · cases hq : takeQuoted w cursor c rest with
    | error failure => rw [hq] at h; cases h
    | ok taken =>
      rw [hq] at h; cases h
      exact suffix_of_takeQuoted hq
  · split at h
    · split at h
      · exact (suffix_of_takeFlag h).trans (List.suffix_cons '-' _)
      · exact hplain h
    · exact hplain h

/-! ## §4 Lines -/

/-- The elements from the cursor to the end of the window. -/
def elements (w : Window) (cursor : Cursor) : Except LineFailure (List Element) :=
  match _hrest : cursor.rest with
  | [] => if cursor.excess = 0 then .ok [] else .error (.fault (.reading cursor.position))
  | c :: rest =>
    if isBlank c then elements w (cursor.move 1 rest)
    else
      match _htaken : takeElement w cursor c rest with
      | .error failure => .error failure
      | .ok (element, next) => (elements w next).map (element :: ·)
termination_by cursor.rest.length
decreasing_by
  · simp [Cursor.move, _hrest]
  · have := (suffix_of_takeElement _htaken).length_le
    simp only [_hrest, List.length_cons]; omega

def wordsOf (elements : List Element) : List Word :=
  elements.filterMap fun
    | .word word => some word
    | .flag _ _ => none

def flagsOf (elements : List Element) : List (Text × Option Text) :=
  elements.filterMap fun
    | .word _ => none
    | .flag key value => some (key, value)

/-- The words and the flags of the part of a line that a window shows. -/
def read (w : Window) : Except LineFailure Parsed :=
  (elements w (.ofWindow w)).map fun found => ⟨wordsOf found, .ofList (flagsOf found)⟩

def Parsed.texts? (line : Parsed) : Option (List Text) := line.words.mapM Word.text

end Line

end Synopsis
