/-
Synopsis.Proofs.Dispatch.Writing — lines that are written and read again.

What is to stand on a line is a list of items: words, and flags with what is given for
them (`Item`). They are written with one space between neighbours, every word and every
value quoted where it has to be, and they are read as they were, whatever characters the
words have (`read_spaced`). A flag needs a key without blanks, for a key cannot be quoted.

A quoted word ends at its closing quote and a plain one at the blank that follows
it, so no item takes in what comes after it. This is said of one item before an
arbitrary rest of the line (`takeElement_write`) and then of all of them
(`elements_spaced`).
-/
import Synopsis.Dispatch.Argument
import Synopsis.Proofs.Line.Whole
import Mathlib.Data.List.Forall2
import Mathlib.Data.List.TakeWhile

namespace Synopsis

open Line (Cursor Element Word)

/-! ## §1 Quoting -/

namespace Dispatch

def escapeQuotes (word : Text) : Text :=
  word.flatMap fun c => if c = '\\' ∨ c = '"' then ['\\', c] else [c]

theorem escapeQuotes_cons (c : Char) (word : Text) :
    escapeQuotes (c :: word) =
      (if c = '\\' ∨ c = '"' then ['\\', c] else [c]) ++ escapeQuotes word := rfl

theorem quote_of_isPlainWord {word : Text} (h : isPlainWord word = true) : quote word = word :=
  if_pos h

theorem quote_of_not_isPlainWord {word : Text} (h : isPlainWord word ≠ true) :
    quote word = '"' :: escapeQuotes word ++ ['"'] :=
  if_neg h

/-- The escapes between quotes stand for the word. -/
theorem decode_escapeQuotes (word : Text) : decode (escapeQuotes word) = word := by
  induction word with
  | nil => rfl
  | cons c word ih =>
    rw [escapeQuotes_cons]
    split
    · rename_i hc
      have hchar : escapedChar c = c := by rcases hc with rfl | rfl <;> rfl
      simp [hchar, ih]
    · rename_i hc
      rw [List.singleton_append, decode_cons (fun heq => hc (.inl heq)), ih]

/-- The first quote that is not escaped is the closing one. -/
theorem untilDelimiter_escapeQuotes (word tail : Text) :
    untilDelimiter (· == '"') 0 (escapeQuotes word ++ '"' :: tail) =
      .found (escapeQuotes word) tail := by
  induction word with
  | nil => exact untilDelimiter_close rfl 0 tail
  | cons c word ih =>
    rw [escapeQuotes_cons, List.append_assoc]
    split
    · rw [List.cons_append, List.singleton_append, untilDelimiter_pair rfl, ih]
      rfl
    · rename_i hc
      obtain ⟨hbackslash, hquote⟩ := not_or.mp hc
      rw [List.singleton_append, untilDelimiter_cons (by simpa using hquote) hbackslash, ih]
      rfl

end Dispatch

/-! ## §2 Words on a line -/

namespace Line

/-- What may follow an element of a line: nothing, or a blank. -/
def Ends (tail : Text) : Prop := ∀ c ∈ tail.head?, isBlank c = true

theorem takeWord_append_of_ends {word tail : Text}
    (hword : ∀ c ∈ word, isBlank c = false ∧ c ≠ '\\') (htail : Ends tail) :
    takeWord 0 (word ++ tail) = some ⟨word, tail, 0⟩ := by
  induction word with
  | nil =>
    cases tail with
    | nil => exact takeWord_nil
    | cons c tail => exact takeWord_blank (htail c rfl) 0 tail
  | cons c word ih =>
    obtain ⟨hblank, hbackslash⟩ := hword c (by simp)
    rw [List.cons_append, takeWord_cons hblank hbackslash, ih fun d hd => hword d (by simp [hd])]
    rfl

/-- The word was read, whatever its place, and this is left of the line. -/
def Gives (text tail : Text) (result : Except LineFailure (Word × Cursor)) : Prop :=
  ∃ word next, result = .ok (word, next) ∧ word.text = some text ∧ next.rest = tail

section Pieces

variable {source : Text} {cursor : Cursor}

/-- A plain word ends where a blank follows it. -/
theorem gives_takePlain (front back : Text) {tail : Text} (h : cursor.Inside source)
    (hrest : cursor.rest = front ++ (back ++ tail))
    (hplain : ∀ c ∈ front ++ back, isBlank c = false ∧ c ≠ '\\') (htail : Ends tail) :
    Gives (front ++ back) tail (takePlain (.whole source) cursor front (back ++ tail)) := by
  have hback : takeWord 0 (back ++ tail) = some ⟨back, tail, 0⟩ :=
    takeWord_append_of_ends (fun c hc => hplain c (by simp [hc])) htail
  have hmeans : decode (front ++ back) = front ++ back :=
    decode_of_no_backslash fun hmem => (hplain _ hmem).2 rfl
  obtain ⟨stretch, hstretch, htaken⟩ := exists_takePlain_eq h hrest
  cases hback.symm.trans hstretch
  exact ⟨_, _, htaken, congrArg some hmeans, rfl⟩

/-- A quoted word ends at its closing quote. -/
theorem gives_takeQuoted {word tail : Text} (h : cursor.Inside source)
    (hrest : cursor.rest = '"' :: (Dispatch.escapeQuotes word ++ '"' :: tail)) :
    Gives word tail
      (takeQuoted (.whole source) cursor '"' (Dispatch.escapeQuotes word ++ '"' :: tail)) := by
  have hadd := h.position_add
  have hnonneg := h.position_nonneg
  rw [hrest] at hadd
  simp only [List.length_cons, List.length_append] at hadd
  unfold takeQuoted Gives
  rw [h.excess_eq, Dispatch.untilDelimiter_escapeQuotes]
  simp only
  rw [if_neg (by omega)]
  refine ⟨_, _, rfl, ?_, rfl⟩
  rw [meaning?_whole (by omega) (by omega), Dispatch.decode_escapeQuotes]

end Pieces

/-- What begins with neither a quote nor two hyphens is a plain word. -/
theorem takeElement_of_plain {c : Char} {rest : Text} (hquote : isQuote c = false)
    (hhyphens : startsWithHyphens (c :: rest) = false) (w : Window) (cursor : Cursor) :
    takeElement w cursor c rest =
      (takePlain w cursor [c] rest).map fun (word, next) => (.word word, next) := by
  unfold takeElement
  rw [if_neg (by simp [hquote])]
  split
  · cases hhyphens
  · rfl

/-- What follows a word does not make it a flag. -/
theorem startsWithHyphens_append {word tail : Text} (hne : word ≠ []) (htail : Ends tail) :
    startsWithHyphens (word ++ tail) = startsWithHyphens word := by
  have hhead : tail.head? ≠ some '-' := fun h => absurd (htail '-' h) (by decide)
  match word with
  | [c] =>
    cases tail with
    | nil => rfl
    | cons d tail => simp_all [startsWithHyphens]
  | c :: d :: word => simp only [List.cons_append, startsWithHyphens_cons]

end Line

open Line (Ends Gives)

namespace Dispatch

/-- A word that is read as it is written has some character, none that has a meaning of its own,
and no hyphens in front. -/
theorem isPlainWord_iff {word : Text} :
    isPlainWord word = true ↔
      word ≠ [] ∧ startsWithHyphens word = false ∧ ∀ c ∈ word, needsQuotes c = false := by
  simp [isPlainWord, and_assoc]

theorem needsQuotes_eq_false_iff {c : Char} :
    needsQuotes c = false ↔ isBlank c = false ∧ Line.isQuote c = false ∧ c ≠ '\\' := by
  simp [needsQuotes, Line.isQuote, and_assoc]

section Elements

variable {source : Text} {cursor : Cursor}

/-- A value that was quoted where it has to be is read as it was. -/
theorem gives_takeQuotedOrPlain {value tail : Text} (h : cursor.Inside source)
    (hrest : cursor.rest = quote value ++ tail) (htail : Ends tail) :
    Gives value tail (Line.takeQuotedOrPlain (.whole source) cursor) := by
  by_cases hplain : isPlainWord value = true
  · obtain ⟨hne, -, hchars⟩ := isPlainWord_iff.mp hplain
    obtain ⟨c, word, rfl⟩ := List.exists_cons_of_ne_nil hne
    rw [quote_of_isPlainWord hplain, List.cons_append] at hrest
    have hquote := (needsQuotes_eq_false_iff.mp (hchars c (by simp))).2.1
    have hgives := Line.gives_takePlain [] (c :: word) h hrest
      (fun d hd => (needsQuotes_eq_false_iff.mp (hchars d hd)).imp_right And.right) htail
    unfold Line.takeQuotedOrPlain
    rw [hrest]
    simpa [hquote] using hgives
  · rw [quote_of_not_isPlainWord hplain] at hrest
    simp only [List.cons_append, List.append_assoc, List.nil_append] at hrest
    have hgives := Line.gives_takeQuoted h hrest
    unfold Line.takeQuotedOrPlain
    rw [hrest]
    simpa [Line.isQuote] using hgives

/-- A quoted or plain word that is no flag is an element of the line. -/
theorem takeElement_quote {word tail : Text} {c : Char} {rest : Text} (h : cursor.Inside source)
    (hrest : cursor.rest = c :: rest) (heq : c :: rest = quote word ++ tail) (htail : Ends tail) :
    isBlank c = false ∧ ∃ found next,
      Line.takeElement (.whole source) cursor c rest = .ok (.word found, next) ∧
        found.text = some word ∧ next.rest = tail := by
  by_cases hplain : isPlainWord word = true
  · obtain ⟨hne, hhyphens, hchars⟩ := isPlainWord_iff.mp hplain
    obtain ⟨d, word, rfl⟩ := List.exists_cons_of_ne_nil hne
    rw [quote_of_isPlainWord hplain] at heq
    have hhyphens' : startsWithHyphens (c :: rest) = false := by
      rw [heq, Line.startsWithHyphens_append hne htail, hhyphens]
    obtain ⟨rfl, hrest'⟩ := List.cons.inj (heq.trans (List.cons_append ..))
    obtain ⟨hblank, hquote, -⟩ := needsQuotes_eq_false_iff.mp (hchars c (by simp))
    obtain ⟨found, next, hread, htext, hnext⟩ := Line.gives_takePlain [c] word h
      (by rw [hrest, hrest']; rfl)
      (fun d hd => (needsQuotes_eq_false_iff.mp (hchars d hd)).imp_right And.right) htail
    refine ⟨hblank, found, next, ?_, htext, hnext⟩
    rw [hrest'] at hhyphens' ⊢
    rw [Line.takeElement_of_plain hquote hhyphens', hread]
    rfl
  · rw [quote_of_not_isPlainWord hplain] at heq
    simp only [List.cons_append, List.append_assoc, List.nil_append, List.cons.injEq] at heq
    obtain ⟨rfl, rfl⟩ := heq
    obtain ⟨found, next, hread, htext, hnext⟩ := Line.gives_takeQuoted h hrest
    refine ⟨by decide, found, next, ?_, htext, hnext⟩
    unfold Line.takeElement
    rw [if_pos (by decide), hread]
    rfl

/-- A key ends where a character follows that belongs to no key. -/
theorem span_key {key rest : Text} (hkey : ∀ c ∈ key, Line.isKeyChar c = true)
    (hrest : ∀ c ∈ rest.head?, Line.isKeyChar c = false) :
    (key ++ rest).takeWhile Line.isKeyChar = key ∧ (key ++ rest).dropWhile Line.isKeyChar = rest := by
  rw [List.takeWhile_append_of_pos hkey, List.dropWhile_append_of_pos hkey]
  cases rest with
  | nil => simp
  | cons c rest => simp [hrest c rfl]

/-- Two hyphens in a line begin a flag. -/
theorem takeElement_hyphens (h : cursor.Inside source) (after : Text) :
    Line.takeElement (.whole source) cursor '-' ('-' :: after) =
      Line.takeFlag (.whole source) cursor after := by
  have hsees : Line.seesHyphens (.whole source) cursor.position = true := by
    simp [Line.seesHyphens, h.position_nonneg]
  unfold Line.takeElement
  rw [if_neg (by decide)]
  simp only [hsees, if_true]

/-- A flag without a value. -/
theorem takeFlag_bare {key tail : Text} (h : cursor.Inside source) (hne : key ≠ [])
    (hkey : ∀ c ∈ key, Line.isKeyChar c = true) (htail : Ends tail) :
    ∃ next, Line.takeFlag (.whole source) cursor (key ++ tail) = .ok (.flag key none, next) ∧
      next.rest = tail := by
  have hend : ∀ c ∈ tail.head?, Line.isKeyChar c = false := fun c hc => by
    simp [Line.isKeyChar, htail c hc]
  obtain ⟨htake, hdrop⟩ := span_key hkey hend
  refine ⟨cursor.move (key.length + 2) tail, ?_, rfl⟩
  unfold Line.takeFlag
  simp only [htake, hdrop, Line.cut_of_inside h]
  rw [if_neg (by simp [Cursor.isStuck, Cursor.move, h.excess_eq]), if_neg (by simpa using hne)]
  split
  · rename_i rest hrest
    exact absurd (htail '=' (by rw [show tail = '=' :: rest from hrest]; rfl)) (by decide)
  · rfl

/-- A flag with a value. -/
theorem takeFlag_value {key value tail : Text} {c d : Char} (h : cursor.Inside source)
    (hrest : cursor.rest = c :: d :: (key ++ '=' :: (quote value ++ tail))) (hne : key ≠ [])
    (hkey : ∀ c ∈ key, Line.isKeyChar c = true) (htail : Ends tail) :
    ∃ next, Line.takeFlag (.whole source) cursor (key ++ '=' :: (quote value ++ tail)) =
      .ok (.flag key (some value), next) ∧ next.rest = tail := by
  have hend : ∀ c ∈ ('=' :: (quote value ++ tail)).head?, Line.isKeyChar c = false := by
    rintro c ⟨⟩
    rfl
  obtain ⟨htake, hdrop⟩ := span_key hkey hend
  have hinside : ((cursor.move (key.length + 2) ('=' :: (quote value ++ tail))).move 1
      (quote value ++ tail)).Inside source := by
    refine (h.move ?_).move ?_
    · rw [hrest]
      simp only [List.length_cons, List.length_append]
      omega
    · simp [Cursor.move]
      omega
  obtain ⟨found, next, hread, htext, hnext⟩ := gives_takeQuotedOrPlain hinside rfl htail
  refine ⟨next, ?_, hnext⟩
  unfold Line.takeFlag
  simp only [htake, hdrop, Line.cut_of_inside h]
  rw [if_neg (by simp [Cursor.isStuck, Cursor.move]), if_neg (by simpa using hne)]
  simp only [Cursor.move] at hread ⊢
  simp only [Line.takeValue, hread, htext]
  rfl

end Elements

/-! ## §3 Items -/

def valuePart : Option Text → Text
  | none => []
  | some value => '=' :: quote value

/-- What is to stand on a line: a word, or a flag with what is given for it. -/
inductive Item where
  | word (text : Text)
  | flag (key : Text) (value : Option Text)
deriving DecidableEq

namespace Item

def write : Item → Text
  | word text => quote text
  | flag key value => '-' :: '-' :: (key ++ valuePart value)

/-- The item can be written: a flag has a key, and nothing in it ends it. -/
def Writable : Item → Prop
  | word _ => True
  | flag key _ => Line.IsKey key

/-- The element is what the item stands for. -/
def Means (item : Item) (element : Element) : Prop :=
  match item with
  | word text => ∃ found, element = .word found ∧ found.text = some text
  | flag key value => element = .flag key value

def text? : Item → Option Text
  | word text => some text
  | flag _ _ => none

def flag? : Item → Option (Text × Option Text)
  | word _ => none
  | flag key value => some (key, value)

/-- An item does not begin with a blank on its line. -/
theorem exists_write_eq_cons (item : Item) :
    ∃ c rest, item.write = c :: rest ∧ isBlank c = false := by
  cases item with
  | flag key value => exact ⟨_, _, rfl, by decide⟩
  | word text =>
    by_cases hplain : isPlainWord text = true
    · obtain ⟨hne, -, hchars⟩ := isPlainWord_iff.mp hplain
      obtain ⟨c, rest, rfl⟩ := List.exists_cons_of_ne_nil hne
      exact ⟨c, rest, quote_of_isPlainWord hplain,
        (needsQuotes_eq_false_iff.mp (hchars c List.mem_cons_self)).1⟩
    · exact ⟨_, _, quote_of_not_isPlainWord hplain, by decide⟩

/-- An item is one element of the line, whatever follows it. -/
theorem takeElement_write {item : Item} {source tail rest : Text} {cursor : Cursor} {c : Char}
    (hitem : item.Writable) (h : cursor.Inside source) (hrest : cursor.rest = c :: rest)
    (heq : c :: rest = item.write ++ tail) (htail : Ends tail) :
    isBlank c = false ∧ ∃ element next,
      Line.takeElement (.whole source) cursor c rest = .ok (element, next) ∧
        item.Means element ∧ next.rest = tail := by
  cases item with
  | word text =>
    obtain ⟨hblank, found, next, htaken, htext, hnext⟩ := takeElement_quote h hrest heq htail
    exact ⟨hblank, _, next, htaken, ⟨found, rfl, htext⟩, hnext⟩
  | flag key value =>
    obtain ⟨hne, hchars⟩ := hitem
    rw [write, List.cons_append, List.cons_append, List.append_assoc] at heq
    obtain ⟨rfl, rfl⟩ := List.cons.inj heq
    have hflag : ∃ next, Line.takeFlag (.whole source) cursor (key ++ (valuePart value ++ tail)) =
        .ok (.flag key value, next) ∧ next.rest = tail := by
      cases value with
      | none => exact takeFlag_bare h hne hchars htail
      | some value => exact takeFlag_value h hrest hne hchars htail
    obtain ⟨next, htaken, hnext⟩ := hflag
    exact ⟨by decide, .flag key value, next, (takeElement_hyphens h _).trans htaken, rfl, hnext⟩

/-- The words among the elements are those among the items. -/
theorem texts_of_means {items : List Item} {found : List Element}
    (h : List.Forall₂ Means items found) :
    (Line.wordsOf found).mapM Word.text = some (items.filterMap text?) := by
  induction h with
  | nil => rfl
  | @cons item element items found hmeans _ ih =>
    cases item with
    | word text =>
      obtain ⟨word, rfl, htext⟩ := hmeans
      show (word :: Line.wordsOf found).mapM Word.text = some (text :: items.filterMap text?)
      rw [List.mapM_cons, htext, ih]
      rfl
    | flag key value =>
      obtain rfl : element = .flag key value := hmeans
      exact ih

/-- The flags among the elements are those among the items. -/
theorem flags_of_means {items : List Item} {found : List Element}
    (h : List.Forall₂ Means items found) : Line.flagsOf found = items.filterMap flag? := by
  induction h with
  | nil => rfl
  | @cons item element items found hmeans _ ih =>
    cases item with
    | word text =>
      obtain ⟨word, rfl, -⟩ := hmeans
      exact ih
    | flag key value =>
      obtain rfl : element = .flag key value := hmeans
      exact congrArg ((key, value) :: ·) ih

end Item

/-! ## §4 Lines of items -/

/-- Behind the first part the line ends, or a space comes before the others. -/
theorem spaced_cons (part : Text) (parts : List Text) :
    ∃ tail, Text.spaced (part :: parts) = part ++ tail ∧ Ends tail ∧
      ((parts = [] ∧ tail = []) ∨ tail = ' ' :: Text.spaced parts) := by
  cases parts with
  | nil => exact ⟨[], by simp [Text.spaced, Text.joinWith], by simp [Ends], .inl ⟨rfl, rfl⟩⟩
  | cons next parts =>
    refine ⟨' ' :: Text.spaced (next :: parts), ?_, ?_, .inr rfl⟩
    · simp [Text.spaced, Text.joinWith]
    · rintro c ⟨⟩
      decide

/-- The elements of a line of items stand for the items, one for each. The induction is on the
items that are left. -/
theorem elements_spaced {source : Text} {items : List Item} {cursor : Cursor}
    (hitems : ∀ item ∈ items, item.Writable) (h : cursor.Inside source)
    (hrest : cursor.rest = Text.spaced (items.map Item.write)) :
    ∃ found, Line.elements (.whole source) cursor = .ok found ∧
      List.Forall₂ Item.Means items found := by
  induction items generalizing cursor with
  | nil =>
    refine ⟨[], ?_, .nil⟩
    rw [Line.elements]
    split
    · simp [h.excess_eq]
    · rename_i c rest hcons
      rw [hrest] at hcons
      cases hcons
  | cons item items ih =>
    have hothers : ∀ other ∈ items, other.Writable :=
      fun other hother => hitems other (by simp [hother])
    obtain ⟨tail, hjoin, htail, hafter⟩ := spaced_cons item.write (items.map Item.write)
    obtain ⟨c, written, hwrite, -⟩ := item.exists_write_eq_cons
    have hcons : cursor.rest = c :: (written ++ tail) := by
      rw [hrest, List.map_cons, hjoin, hwrite, List.cons_append]
    obtain ⟨hblank, element, next, htaken, hmeans, hnext⟩ := Item.takeElement_write
      (hitems item (by simp)) h hcons (by rw [hwrite, List.cons_append]) htail
    have hinside : next.Inside source := (Line.inside_of_takeElement h hcons htaken).2
    obtain ⟨found, hfound, hall⟩ : ∃ found,
        Line.elements (.whole source) next = .ok found ∧ List.Forall₂ Item.Means items found := by
      rcases hafter with ⟨hnil, htail⟩ | htail
      · exact ih hothers hinside (by rw [hnext, htail, hnil]; rfl)
      · have hspace := hnext.trans htail
        rw [Line.elements_of_blank hspace (by decide)]
        refine ih hothers (hinside.move ?_) rfl
        rw [hspace, List.length_cons]
        omega
    exact ⟨element :: found, by rw [Line.elements_of_taken hcons hblank htaken, hfound]; rfl,
      .cons hmeans hall⟩

/-- A line of items can be read. Its words are those among the items, and its table is made by the
flags among them. -/
theorem read_spaced {items : List Item} (hitems : ∀ item ∈ items, item.Writable) :
    ∃ line, Line.read (.whole (Text.spaced (items.map Item.write))) = .ok line ∧
      line.texts? = some (items.filterMap Item.text?) ∧
      line.flags = .ofList (items.filterMap Item.flag?) := by
  obtain ⟨found, hfound, hmeans⟩ := elements_spaced hitems
    (Line.inside_ofWindow (Text.spaced (items.map Item.write))) (Window.chars_whole _)
  refine ⟨⟨Line.wordsOf found, .ofList (Line.flagsOf found)⟩, ?_, Item.texts_of_means hmeans,
    congrArg _ (Item.flags_of_means hmeans)⟩
  rw [Line.read, hfound]
  rfl

end Dispatch

end Synopsis
