/-
Synopsis.Proofs.Line.Whole — reading a line to its end.

A cursor that goes through a whole line stays inside it: it stands where the text
that is left begins, and no offset names anything else (`Cursor.Inside`). Every word
found on the way lies inside the line, so it has a text. Words without one are found
in windows that leave the line alone, and so are offsets that cannot be read: a whole
line is read or malformed (`read_whole_ne_fault`).
-/
import Synopsis.Line.Token
import Synopsis.Proofs.Line.Flags

namespace Synopsis

section Results

variable {ε α β : Type} {f : α → β} {result : Except ε α}

theorem map_eq_ok_iff {b : β} : result.map f = .ok b ↔ ∃ a, result = .ok a ∧ f a = b := by
  cases result <;> simp [Except.map]

theorem map_eq_error_iff {error : ε} : result.map f = .error error ↔ result = .error error := by
  cases result <;> simp [Except.map]

end Results

namespace Line

/-! ## §1 Cursors inside a line -/

/-- The cursor stands in the line where the text that is left begins. -/
structure Cursor.Inside (source : Text) (cursor : Cursor) : Prop where
  position_nonneg : 0 ≤ cursor.position
  position_add : cursor.position + cursor.rest.length = source.length
  excess_eq : cursor.excess = 0

theorem inside_ofWindow (source : Text) : (Cursor.ofWindow (.whole source)).Inside source where
  position_nonneg := Int.le_refl 0
  position_add := by
    show (0 : Int) + (Window.whole source).chars.length = source.length
    rw [Window.chars_whole]
    omega
  excess_eq := Window.excess_whole source

theorem Cursor.Inside.move {source : Text} {cursor : Cursor} (h : cursor.Inside source)
    {width : Nat} {rest : Text} (hlength : width + rest.length = cursor.rest.length) :
    (cursor.move width rest).Inside source := by
  obtain ⟨hnonneg, hadd, hexcess⟩ := h
  refine ⟨?_, ?_, hexcess⟩
  · simp only [Cursor.move]; omega
  · simp only [Cursor.move]; omega

/-- A stretch inside the line has a text. -/
theorem meaning?_whole {source raw : Text} {start stop : Int} (hstart : 0 ≤ start)
    (hstop : stop ≤ source.length) :
    (Window.whole source).meaning? start stop raw = some (decode raw) :=
  if_pos ⟨hstart, hstop⟩

/-! ## §2 Pieces of elements -/

/-- A word runs over the end of a line no further than the window goes. -/
theorem overrun_le_of_takeWord {excess : Nat} {text : Text} {s : Stretch}
    (h : takeWord excess text = some s) : s.overrun ≤ excess := by
  fun_induction takeWord excess text generalizing s with
  | case1 => cases h; exact Nat.zero_le _
  | case2 => cases h
  | case3 => cases h; exact Nat.zero_le _
  | case4 => cases h; exact Nat.le_refl _
  | case5 => cases h
  | case6 _ _ _ ih =>
    obtain ⟨t, ht, rfl⟩ := Option.map_eq_some_iff.mp h
    have hle : t.overrun ≤ excess := ih ht
    exact hle
  | case7 _ _ _ _ ih =>
    obtain ⟨t, ht, rfl⟩ := Option.map_eq_some_iff.mp h
    have hle : t.overrun ≤ excess := ih ht
    exact hle

/-- Behind the last character of a line a word has ended. -/
theorem takeWord_ne_none (text : Text) : takeWord 0 text ≠ none := by
  fun_induction takeWord 0 text with
  | case1 => simp
  | case2 h => exact absurd rfl h
  | case3 => simp
  | case4 => simp
  | case5 h => exact absurd (Nat.zero_le 1) h
  | case6 _ _ _ ih => simpa using ih
  | case7 _ _ _ _ ih => simpa using ih

/-- A flag has a key, and a value behind the key if `=` stands there. -/
theorem takeFlag_eq_ok {w : Window} {cursor next : Cursor} {rest : Text} {element : Element}
    (h : takeFlag w cursor rest = .ok (element, next)) :
    let raw := rest.takeWhile isKeyChar
    let key := w.cut (cursor.position + 2) (cursor.position + 2 + raw.length) raw
    let behind := cursor.move (raw.length + 2) (rest.dropWhile isKeyChar)
    raw ≠ [] ∧
      ((∃ after value, rest.dropWhile isKeyChar = '=' :: after ∧
          takeValue w (behind.move 1 after) = .ok (value, next) ∧
          element = .flag key (some value)) ∨
        (next = behind ∧ element = .flag key none)) := by
  intro raw key behind
  unfold takeFlag at h
  simp only at h
  split at h
  · cases h
  · split at h
    · cases h
    · rename_i hraw
      refine ⟨fun hnil => hraw (List.isEmpty_iff.mpr hnil), ?_⟩
      split at h
      · rename_i after hafter
        obtain ⟨⟨value, next'⟩, hvalue, heq⟩ := map_eq_ok_iff.mp h
        cases heq
        exact .inl ⟨after, value, hafter, hvalue, rfl⟩
      · cases h
        exact .inr ⟨rfl, rfl⟩

section Pieces

variable {source : Text} {cursor next : Cursor} {word : Word}

theorem inside_of_takeQuoted {quote : Char} {rest : Text} (h : cursor.Inside source)
    (hrest : cursor.rest = quote :: rest)
    (hread : takeQuoted (.whole source) cursor quote rest = .ok (word, next)) :
    word.text.isSome = true ∧ next.Inside source := by
  have hadd := h.position_add
  have hnonneg := h.position_nonneg
  rw [hrest, List.length_cons] at hadd
  unfold takeQuoted at hread
  split at hread
  · cases hread
  · cases hread
  · rename_i raw after hfound
    obtain ⟨c, -, happend⟩ := untilDelimiter_append hfound
    have hlength := congrArg List.length happend
    rw [List.length_append, List.length_cons] at hlength
    simp only at hread
    split at hread
    · cases hread
    · cases hread
      refine ⟨by rw [meaning?_whole (by omega) (by omega)]; rfl, h.move ?_⟩
      rw [hrest, List.length_cons]
      omega

/-- A plain word goes up to where the scan behind its first characters ends, and it means what is
written there. -/
theorem exists_takePlain_eq {front rest : Text} (h : cursor.Inside source)
    (hrest : cursor.rest = front ++ rest) :
    ∃ tail, takeWord 0 rest = some tail ∧ takePlain (.whole source) cursor front rest =
      .ok (⟨cursor.position, cursor.position + (front ++ tail.raw).length,
        some (decode (front ++ tail.raw))⟩, cursor.move (front ++ tail.raw).length tail.rest) := by
  obtain ⟨tail, htail⟩ := Option.ne_none_iff_exists'.mp (takeWord_ne_none rest)
  refine ⟨tail, htail, ?_⟩
  have hadd := h.position_add
  have happend := takeWord_append htail
  have hoverrun : tail.overrun = 0 := Nat.le_zero.mp (overrun_le_of_takeWord htail)
  have hwidth : (tail.after front).width = (front ++ tail.raw).length := by
    simp [Stretch.width, Stretch.after, hoverrun]
  rw [hrest, ← happend, ← List.append_assoc, List.length_append] at hadd
  have hmeans : (Window.whole source).meaning? cursor.position
      (cursor.position + (front ++ tail.raw).length) (front ++ tail.raw) =
        some (decode (front ++ tail.raw)) :=
    meaning?_whole h.position_nonneg (by omega)
  unfold takePlain
  rw [h.excess_eq, htail]
  simp only [hwidth]
  simp only [Stretch.after, hmeans, hoverrun, Cursor.move, h.excess_eq, Nat.sub_zero]

theorem inside_of_takePlain {front rest : Text} (h : cursor.Inside source)
    (hrest : cursor.rest = front ++ rest)
    (hread : takePlain (.whole source) cursor front rest = .ok (word, next)) :
    word.text.isSome = true ∧ next.Inside source := by
  obtain ⟨tail, htail, htaken⟩ := exists_takePlain_eq h hrest
  cases htaken.symm.trans hread
  refine ⟨rfl, h.move ?_⟩
  rw [hrest, ← takeWord_append htail, ← List.append_assoc, ← List.length_append]

theorem inside_of_takeQuotedOrPlain (h : cursor.Inside source)
    (hread : takeQuotedOrPlain (.whole source) cursor = .ok (word, next)) :
    word.text.isSome = true ∧ next.Inside source := by
  unfold takeQuotedOrPlain at hread
  split at hread
  · rename_i hrest
    exact inside_of_takePlain h hrest hread
  · rename_i c rest hrest
    split at hread
    · exact inside_of_takeQuoted h hrest hread
    · exact inside_of_takePlain h hrest hread

theorem inside_of_takeValue {value : Text} (h : cursor.Inside source)
    (hread : takeValue (.whole source) cursor = .ok (value, next)) : next.Inside source := by
  unfold takeValue at hread
  split at hread
  · cases hread
  · rename_i htaken
    split at hread
    · cases hread
    · cases hread
      exact (inside_of_takeQuotedOrPlain h htaken).2

/-- Behind two hyphens and a key the cursor is still in the line. -/
theorem Cursor.Inside.behindKey {rest : Text} {c d : Char} (h : cursor.Inside source)
    (hrest : cursor.rest = c :: d :: rest) :
    (cursor.move ((rest.takeWhile isKeyChar).length + 2) (rest.dropWhile isKeyChar)).Inside
      source := by
  have hlength :=
    congrArg List.length (List.takeWhile_append_dropWhile (p := isKeyChar) (l := rest))
  rw [List.length_append] at hlength
  refine h.move ?_
  rw [hrest, List.length_cons, List.length_cons]
  omega

theorem inside_of_takeFlag {rest : Text} {c d : Char} {element : Element} (h : cursor.Inside source)
    (hrest : cursor.rest = c :: d :: rest)
    (hread : takeFlag (.whole source) cursor rest = .ok (element, next)) :
    (∀ word, element ≠ .word word) ∧ next.Inside source := by
  have hbehind := h.behindKey hrest
  obtain ⟨-, ⟨after, value, hafter, hvalue, rfl⟩ | ⟨rfl, rfl⟩⟩ := takeFlag_eq_ok hread
  · refine ⟨fun _ => by simp, inside_of_takeValue (hbehind.move ?_) hvalue⟩
    rw [Cursor.move, hafter, List.length_cons]
    omega
  · exact ⟨fun _ => by simp, hbehind⟩

end Pieces

/-! ## §3 Lines -/

def Element.HasText (element : Element) : Prop :=
  ∀ word, element = .word word → word.text.isSome = true

def asElement (taken : Word × Cursor) : Element × Cursor := (.word taken.1, taken.2)

/-- An element is a quoted word, a plain one or a flag. -/
theorem takeElement_cases (w : Window) (cursor : Cursor) (c : Char) (rest : Text) :
    takeElement w cursor c rest = (takeQuoted w cursor c rest).map asElement ∨
      takeElement w cursor c rest = (takePlain w cursor [c] rest).map asElement ∨
      ∃ after, c :: rest = '-' :: '-' :: after ∧
        takeElement w cursor c rest = takeFlag w cursor after := by
  unfold takeElement
  split
  · exact .inl rfl
  · split
    · split
      · exact .inr (.inr ⟨_, rfl, rfl⟩)
      · exact .inr (.inl rfl)
    · exact .inr (.inl rfl)

theorem inside_of_takeElement {source : Text} {cursor next : Cursor} {c : Char} {rest : Text}
    {element : Element} (h : cursor.Inside source) (hrest : cursor.rest = c :: rest)
    (hread : takeElement (.whole source) cursor c rest = .ok (element, next)) :
    element.HasText ∧ next.Inside source := by
  have hword {found : Word × Cursor} (hfound : asElement found = (element, next))
      (hinside : found.1.text.isSome = true ∧ found.2.Inside source) :
      element.HasText ∧ next.Inside source := by
    cases hfound
    refine ⟨?_, hinside.2⟩
    intro word heq
    cases heq
    exact hinside.1
  rcases takeElement_cases (.whole source) cursor c rest with hcase | hcase |
    ⟨after, hhyphens, hcase⟩
  · obtain ⟨found, hfound, heq⟩ := map_eq_ok_iff.mp (hcase.symm.trans hread)
    exact hword heq (inside_of_takeQuoted h hrest hfound)
  · obtain ⟨found, hfound, heq⟩ := map_eq_ok_iff.mp (hcase.symm.trans hread)
    exact hword heq (inside_of_takePlain h hrest hfound)
  · obtain ⟨hflag, hinside⟩ := inside_of_takeFlag h (hrest.trans hhyphens) (hcase.symm.trans hread)
    exact ⟨fun word heq => absurd heq (hflag word), hinside⟩

/-- Nothing is read at the end of a window. -/
theorem elements_of_end {w : Window} {cursor : Cursor} (hrest : cursor.rest = [])
    (hexcess : cursor.excess = 0) : elements w cursor = .ok [] := by
  rw [elements]
  split
  · exact if_pos hexcess
  · rename_i c rest hcons
    rw [hrest] at hcons
    cases hcons

/-- An element that cannot be read ends the reading. -/
theorem elements_of_failed {w : Window} {cursor : Cursor} {c : Char} {rest : Text}
    {failure : LineFailure} (hrest : cursor.rest = c :: rest) (hblank : isBlank c = false)
    (hfailed : takeElement w cursor c rest = .error failure) :
    elements w cursor = .error failure := by
  rw [elements]
  split
  · rename_i hnil
    rw [hrest] at hnil
    cases hnil
  · rename_i c' rest' hcons
    cases hrest.symm.trans hcons
    rw [if_neg (by simp [hblank])]
    split
    · rename_i failure' hfailed'
      exact congrArg Except.error (Except.error.inj (hfailed'.symm.trans hfailed))
    · rename_i element next hfound
      cases hfailed.symm.trans hfound

/-- An element that can be read is followed by those after it. -/
theorem elements_of_taken {w : Window} {cursor next : Cursor} {c : Char} {rest : Text}
    {element : Element} (hrest : cursor.rest = c :: rest) (hblank : isBlank c = false)
    (htaken : takeElement w cursor c rest = .ok (element, next)) :
    elements w cursor = (elements w next).map (element :: ·) := by
  rw [elements]
  split
  · rename_i hnil
    rw [hrest] at hnil
    cases hnil
  · rename_i c' rest' hcons
    cases hrest.symm.trans hcons
    rw [if_neg (by simp [hblank])]
    split
    · rename_i failure hfailed
      cases htaken.symm.trans hfailed
    · rename_i element' next' hfound
      cases htaken.symm.trans hfound
      rfl

/-- A blank is passed over. -/
theorem elements_of_blank {w : Window} {cursor : Cursor} {c : Char} {rest : Text}
    (hrest : cursor.rest = c :: rest) (hblank : isBlank c = true) :
    elements w cursor = elements w (cursor.move 1 rest) := by
  rw [elements]
  split
  · rename_i hnil
    rw [hrest] at hnil
    cases hnil
  · rename_i c' rest' hcons
    cases hrest.symm.trans hcons
    rw [if_pos hblank]

/-- What holds of every element that can be taken in the line holds of all that are found from a
cursor inside it on. -/
theorem forall_of_elements {source : Text} {P : Element → Prop}
    (htake : ∀ {cursor next : Cursor} {c : Char} {rest : Text} {element : Element},
      cursor.Inside source → cursor.rest = c :: rest →
        takeElement (.whole source) cursor c rest = .ok (element, next) → P element)
    {cursor : Cursor} {found : List Element} (h : cursor.Inside source)
    (hread : elements (.whole source) cursor = .ok found) : ∀ element ∈ found, P element := by
  fun_induction elements (.whole source) cursor generalizing found with
  | case1 => cases hread; simp
  | case2 => cases hread
  | case3 cursor c rest hrest hblank ih =>
    refine ih (h.move ?_) hread
    rw [hrest, List.length_cons]
    omega
  | case4 => cases hread
  | case5 cursor c rest hrest hblank element next htaken ih =>
    have hinside := (inside_of_takeElement h hrest htaken).2
    obtain ⟨others, hothers, rfl⟩ := map_eq_ok_iff.mp hread
    intro other hother
    rcases List.mem_cons.mp hother with rfl | hother
    · exact htake h hrest htaken
    · exact ih hinside hothers other hother

/-- Every word that is found from a cursor inside the line on has a text. -/
theorem hasText_of_elements {source : Text} {cursor : Cursor} {found : List Element}
    (h : cursor.Inside source) (hread : elements (.whole source) cursor = .ok found) :
    ∀ element ∈ found, element.HasText :=
  forall_of_elements (fun h hrest htaken => (inside_of_takeElement h hrest htaken).1) h hread

theorem isSome_mapM_text {words : List Word} (h : ∀ word ∈ words, word.text.isSome = true) :
    (words.mapM Word.text).isSome = true := by
  induction words with
  | nil => rfl
  | cons word words ih =>
    obtain ⟨text, htext⟩ := Option.isSome_iff_exists.mp (h word (by simp))
    have ih := ih fun other hother => h other (by simp [hother])
    obtain ⟨texts, htexts⟩ := Option.isSome_iff_exists.mp ih
    rw [List.mapM_cons, htext, htexts]
    rfl

/-- A line that was read has the words and the flags among its elements. -/
theorem read_eq_ok_iff {w : Window} {parsed : Parsed} :
    read w = .ok parsed ↔ ∃ found, elements w (.ofWindow w) = .ok found ∧
      (⟨wordsOf found, .ofList (flagsOf found)⟩ : Parsed) = parsed :=
  map_eq_ok_iff

/-- Every word of a line that was read to its end has a text. -/
theorem isSome_text_of_read_whole {source : Text} {parsed : Parsed}
    (h : read (.whole source) = .ok parsed) : ∀ word ∈ parsed.words, word.text.isSome = true := by
  obtain ⟨found, hfound, rfl⟩ := read_eq_ok_iff.mp h
  intro word hword
  obtain ⟨element, hmem, heq⟩ := List.mem_filterMap.mp hword
  refine hasText_of_elements (inside_ofWindow source) hfound element hmem word ?_
  cases element with
  | word other => cases heq; rfl
  | flag key value => cases heq

/-- All words of a line that was read to its end have texts. -/
theorem texts?_of_read_whole {source : Text} {parsed : Parsed}
    (h : read (.whole source) = .ok parsed) : ∃ texts, parsed.texts? = some texts :=
  Option.isSome_iff_exists.mp (isSome_mapM_text (isSome_text_of_read_whole h))

/-! ## §4 Keys -/

/-- What can be read as the key of a flag. -/
def IsKey (key : Text) : Prop := key ≠ [] ∧ ∀ c ∈ key, isKeyChar c = true

def Element.HasKey (element : Element) : Prop :=
  ∀ key value, element = .flag key value → IsKey key

/-- The first hyphens of a flag are not before the line. -/
theorem cut_of_inside {source : Text} {cursor : Cursor} (h : cursor.Inside source) (stop : Int)
    (raw : Text) : (Window.whole source).cut (cursor.position + 2) stop raw = raw := by
  have := h.position_nonneg
  exact if_neg fun hbefore => absurd hbefore.1 (by omega)

theorem hasKey_of_takeFlag {source rest : Text} {cursor next : Cursor} {element : Element}
    (h : cursor.Inside source)
    (hread : takeFlag (.whole source) cursor rest = .ok (element, next)) : element.HasKey := by
  obtain ⟨hraw, hflag⟩ := takeFlag_eq_ok hread
  have hkey : IsKey (rest.takeWhile isKeyChar) :=
    ⟨hraw, List.all_eq_true.mp List.all_takeWhile⟩
  rw [cut_of_inside h] at hflag
  intro key value heq
  rcases hflag with ⟨after, value', -, -, rfl⟩ | ⟨-, rfl⟩
  · cases heq
    exact hkey
  · cases heq
    exact hkey

theorem hasKey_of_takeElement {source rest : Text} {cursor next : Cursor} {c : Char}
    {element : Element} (h : cursor.Inside source)
    (hread : takeElement (.whole source) cursor c rest = .ok (element, next)) :
    element.HasKey := by
  -- a word has no key that could be a wrong one
  have hword {found : Word × Cursor} (hfound : asElement found = (element, next)) :
      element.HasKey := by
    cases hfound
    intro key value heq
    cases heq
  rcases takeElement_cases (.whole source) cursor c rest with hcase | hcase | ⟨after, -, hcase⟩
  · obtain ⟨found, -, heq⟩ := map_eq_ok_iff.mp (hcase.symm.trans hread)
    exact hword heq
  · obtain ⟨found, -, heq⟩ := map_eq_ok_iff.mp (hcase.symm.trans hread)
    exact hword heq
  · exact hasKey_of_takeFlag h (hcase.symm.trans hread)

/-- The table of a line that was read to its end has keys only. -/
theorem isKey_of_read_whole {source : Text} {parsed : Parsed}
    (h : read (.whole source) = .ok parsed) : ∀ key ∈ parsed.flags.keys, IsKey key := by
  obtain ⟨found, hfound, rfl⟩ := read_eq_ok_iff.mp h
  intro key hkey
  have hgiven : key ∈ (flagsOf found).map Prod.fst := by
    rw [FlagTable.keys_ofList] at hkey
    exact List.mem_eraseDups.mp hkey
  obtain ⟨⟨key', value⟩, hflag, rfl⟩ := List.mem_map.mp hgiven
  obtain ⟨element, hmem, heq⟩ := List.mem_filterMap.mp hflag
  have hhas := forall_of_elements (fun h _ => hasKey_of_takeElement h) (inside_ofWindow source)
    hfound element hmem
  cases element with
  | word word => cases heq
  | flag key value => cases heq; exact hhas _ _ rfl

/-- Each key is in the table once. -/
theorem nodup_keys_of_read {w : Window} {parsed : Parsed} (h : read w = .ok parsed) :
    parsed.flags.keys.Nodup := by
  obtain ⟨found, -, rfl⟩ := read_eq_ok_iff.mp h
  exact FlagTable.nodup_keys_ofList _

/-! ## §5 Lines that cannot be read -/

/-- Behind the last character of a line no delimiter is searched for. -/
theorem untilDelimiter_ne_unreadable (closes : Char → Bool) (text : Text) :
    untilDelimiter closes 0 text ≠ .unreadable := by
  have hafter {front : Text} {closing : Closing} (h : closing ≠ .unreadable) :
      closing.after front ≠ .unreadable := by
    cases closing with
    | found => simp [Closing.after]
    | absent => simp [Closing.after]
    | unreadable => exact absurd rfl h
  fun_induction untilDelimiter closes 0 text with
  | case1 => simp
  | case2 h => exact absurd rfl h
  | case3 => simp
  | case4 => simp
  | case5 h => exact absurd (Nat.zero_le 1) h
  | case6 _ _ _ ih => exact hafter ih
  | case7 _ _ _ _ ih => exact hafter ih

section Faults

variable {source : Text} {cursor : Cursor}

theorem takeQuoted_ne_fault (h : cursor.Inside source) (quote : Char) (rest : Text) (fault : Fault) :
    takeQuoted (.whole source) cursor quote rest ≠ .error (.fault fault) := by
  unfold takeQuoted
  rw [h.excess_eq]
  split
  · rename_i hunreadable
    exact absurd hunreadable (untilDelimiter_ne_unreadable _ rest)
  · simp
  · simp only
    split <;> simp

theorem takePlain_ne_fault {front rest : Text} (h : cursor.Inside source)
    (hrest : cursor.rest = front ++ rest) (fault : Fault) :
    takePlain (.whole source) cursor front rest ≠ .error (.fault fault) := by
  obtain ⟨tail, -, htaken⟩ := exists_takePlain_eq h hrest
  simp [htaken]

theorem takeQuotedOrPlain_ne_fault (h : cursor.Inside source) (fault : Fault) :
    takeQuotedOrPlain (.whole source) cursor ≠ .error (.fault fault) := by
  unfold takeQuotedOrPlain
  split
  · rename_i hrest
    exact takePlain_ne_fault h hrest fault
  · rename_i c rest hrest
    split
    · exact takeQuoted_ne_fault h _ _ fault
    · exact takePlain_ne_fault h hrest fault

/-- A value that was read has a text. -/
theorem takeValue_ne_fault (h : cursor.Inside source) (fault : Fault) :
    takeValue (.whole source) cursor ≠ .error (.fault fault) := by
  unfold takeValue
  split
  · rename_i failure hfailed
    intro hfault
    cases hfault
    exact takeQuotedOrPlain_ne_fault h fault hfailed
  · rename_i word next hread
    have htext := (inside_of_takeQuotedOrPlain h hread).1
    split
    · rename_i hnone
      rw [hnone] at htext
      cases htext
    · simp

theorem takeFlag_ne_fault {rest : Text} {c d : Char} (h : cursor.Inside source)
    (hrest : cursor.rest = c :: d :: rest) (fault : Fault) :
    takeFlag (.whole source) cursor rest ≠ .error (.fault fault) := by
  have hbehind := h.behindKey hrest
  unfold takeFlag
  simp only
  split
  · rename_i hstuck
    simp [Cursor.isStuck, hbehind.excess_eq] at hstuck
  · split
    · simp
    · split
      · rename_i after hafter
        have hinside : ((cursor.move ((rest.takeWhile isKeyChar).length + 2)
            (rest.dropWhile isKeyChar)).move 1 after).Inside source := by
          refine hbehind.move ?_
          rw [hafter, List.length_cons]
          omega
        exact mt map_eq_error_iff.mp (takeValue_ne_fault hinside fault)
      · simp

theorem takeElement_ne_fault {c : Char} {rest : Text} (h : cursor.Inside source)
    (hrest : cursor.rest = c :: rest) (fault : Fault) :
    takeElement (.whole source) cursor c rest ≠ .error (.fault fault) := by
  rcases takeElement_cases (.whole source) cursor c rest with hcase | hcase |
    ⟨after, hhyphens, hcase⟩
  · rw [hcase]
    exact mt map_eq_error_iff.mp (takeQuoted_ne_fault h c rest fault)
  · rw [hcase]
    exact mt map_eq_error_iff.mp (takePlain_ne_fault h hrest fault)
  · rw [hcase]
    exact takeFlag_ne_fault h (hrest.trans hhyphens) fault

/-- Reading goes on to the end of the line or stops where it is malformed. -/
theorem elements_ne_fault (h : cursor.Inside source) (fault : Fault) :
    elements (.whole source) cursor ≠ .error (.fault fault) := by
  fun_induction elements (.whole source) cursor with
  | case1 => simp
  | case2 cursor hrest hexcess => exact absurd h.excess_eq hexcess
  | case3 cursor c rest hrest hblank ih =>
    refine ih (h.move ?_)
    rw [hrest, List.length_cons]
    omega
  | case4 cursor c rest hrest hblank failure htaken =>
    intro hfault
    cases hfault
    exact takeElement_ne_fault h hrest fault htaken
  | case5 cursor c rest hrest hblank element next htaken ih =>
    exact mt map_eq_error_iff.mp (ih (inside_of_takeElement h hrest htaken).2)

end Faults

/-- A whole line is read, or it is malformed. -/
theorem read_whole_ne_fault (source : Text) (fault : Fault) :
    read (.whole source) ≠ .error (.fault fault) :=
  mt map_eq_error_iff.mp (elements_ne_fault (inside_ofWindow source) fault)

end Line

end Synopsis
