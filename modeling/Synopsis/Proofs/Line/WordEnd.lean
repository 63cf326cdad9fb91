/-
Synopsis.Proofs.Line.WordEnd — where a plain word ends, and which blanks are escaped in it.

`decode` pairs each backslash with the character behind it, from left to right
(`decode_eq_map_glyphs`), so it is settled which characters of a text are second halves of
a pair (`escapes`). A word should end at the first blank that is none (`IsWordEnd`).
`takeWord` finds that end in the text that it is given (`isWordEnd_iff`). A plain word of
a line is scanned from its second character on, though, while its text is decoded from the
first on. The two walks are in phase unless the word begins with backslashes and a blank
stands behind the last of them (`isWordEnd_cons_iff`); then they are not, and the word ends
inside a pair or goes on over a blank that is not escaped (`plainWords_of_read`).
-/
import Synopsis.Proofs.Line.Places
import Synopsis.Proofs.Match.Soundness

namespace Synopsis

/-! ## §1 Pairs -/

/-- A character as it is written: by itself, or behind a backslash. -/
inductive Glyph where
  | plain (c : Char)
  | pair (c : Char)

namespace Glyph

def written : Glyph → Text
  | plain c => [c]
  | pair c => ['\\', c]

def meant : Glyph → Char
  | plain c => c
  | pair c => escapedChar c

/-- For each character that is written, whether it is the second half of a pair. -/
def halves : Glyph → List Bool
  | plain _ => [false]
  | pair _ => [false, true]

/-- A word goes on over everything but a blank by itself. -/
def staysInWord : Glyph → Bool
  | plain c => !isBlank c
  | pair _ => true

theorem length_halves (glyph : Glyph) : glyph.halves.length = glyph.written.length := by
  cases glyph <;> rfl

end Glyph

/-- The text in characters by themselves and pairs. A backslash with nothing behind it is by
itself. -/
def glyphs : Text → List Glyph
  | '\\' :: c :: rest => .pair c :: glyphs rest
  | c :: rest => .plain c :: glyphs rest
  | [] => []

/-- For each character of the text, whether a backslash before it escapes it. -/
def escapes (text : Text) : List Bool := (glyphs text).flatMap Glyph.halves

theorem glyphs_pair (c : Char) (rest : Text) :
    glyphs ('\\' :: c :: rest) = .pair c :: glyphs rest := by
  simp [glyphs]

theorem glyphs_plain {c : Char} {rest : Text} (h : c ≠ '\\' ∨ rest = []) :
    glyphs (c :: rest) = .plain c :: glyphs rest := by
  rw [glyphs]
  rintro d rest' rfl rfl
  simp at h

/-- Decoding replaces each glyph by what it means. -/
theorem decode_eq_map_glyphs (text : Text) : decode text = (glyphs text).map Glyph.meant := by
  fun_induction glyphs text with
  | case1 c rest ih => rw [decode_pair, ih, List.map_cons, Glyph.meant]
  | case2 c rest hc ih => rw [decode.eq_2 c rest hc, ih, List.map_cons, Glyph.meant]
  | case3 => rfl

/-! ## §2 The end of a word -/

/-- A word at the beginning of the text ends at the offset: all blanks before it are escaped, and
there the text ends or has a blank that is not. -/
structure IsWordEnd (text : Text) (n : Nat) : Prop where
  le_length : n ≤ text.length
  escaped : ∀ i < n, ∀ c, text[i]? = some c → isBlank c = true → (escapes text)[i]? = some true
  ends : ∀ c, text[n]? = some c → isBlank c = true ∧ (escapes text)[n]? = some false

theorem isWordEnd_nil {n : Nat} : IsWordEnd [] n ↔ n = 0 := by
  constructor
  · intro h
    exact Nat.le_zero.mp h.le_length
  · rintro rfl
    exact ⟨Nat.le_refl 0, by simp, by simp⟩

/-- The first character of a text is no second half. -/
theorem escapes_zero (c : Char) (rest : Text) : (escapes (c :: rest))[0]? = some false := by
  unfold escapes
  by_cases hc : c = '\\' ∧ rest ≠ []
  · obtain ⟨rfl, hrest⟩ := hc
    obtain ⟨d, rest, rfl⟩ := List.exists_cons_of_ne_nil hrest
    rw [glyphs_pair]
    rfl
  · rw [glyphs_plain (by tauto)]
    rfl

theorem isWordEnd_blank {c : Char} (h : isBlank c = true) {rest : Text} {n : Nat} :
    IsWordEnd (c :: rest) n ↔ n = 0 := by
  constructor
  · intro hend
    by_contra hn
    have hescaped := hend.escaped 0 (Nat.pos_of_ne_zero hn) c rfl h
    rw [escapes_zero] at hescaped
    cases hescaped
  · rintro rfl
    refine ⟨Nat.zero_le _, by simp, ?_⟩
    rintro d ⟨⟩
    exact ⟨h, escapes_zero c rest⟩

section Behind

variable {glyph : Glyph} {rest : Text}
  (hglyphs : glyphs (glyph.written ++ rest) = glyph :: glyphs rest)

include hglyphs

theorem escapes_glyph : escapes (glyph.written ++ rest) = glyph.halves ++ escapes rest := by
  rw [escapes, hglyphs, List.flatMap_cons, escapes]

theorem getElem?_behind_glyph (i : Nat) :
    (glyph.written ++ rest)[i + glyph.written.length]? = rest[i]? ∧
      (escapes (glyph.written ++ rest))[i + glyph.written.length]? = (escapes rest)[i]? := by
  rw [escapes_glyph hglyphs, List.getElem?_append_right (by omega), ← glyph.length_halves,
    List.getElem?_append_right (by omega), Nat.add_sub_cancel]
  exact ⟨rfl, rfl⟩

/-- A blank in a glyph that stays in the word is the second half of a pair. -/
theorem escapes_inside_glyph (hstays : glyph.staysInWord = true) {i : Nat}
    (hi : i < glyph.written.length) {c : Char} (hc : (glyph.written ++ rest)[i]? = some c)
    (hblank : isBlank c = true) : (escapes (glyph.written ++ rest))[i]? = some true := by
  rw [List.getElem?_append_left hi] at hc
  rw [escapes_glyph hglyphs, List.getElem?_append_left (by rwa [glyph.length_halves])]
  cases glyph with
  | plain d =>
    obtain rfl : i = 0 := Nat.lt_one_iff.mp hi
    cases hc
    simp [Glyph.staysInWord, hblank] at hstays
  | pair d =>
    match i, hi with
    | 0, _ =>
      cases hc
      cases hblank
    | 1, _ => rfl

/-- So the word does not end before the end of the glyph. -/
theorem IsWordEnd.length_le_of_glyph {n : Nat} (h : IsWordEnd (glyph.written ++ rest) n)
    (hstays : glyph.staysInWord = true) : glyph.written.length ≤ n := by
  by_contra hlt
  have hn : n < glyph.written.length := by omega
  have hchar : (glyph.written ++ rest)[n]? = some glyph.written[n] := by
    rw [List.getElem?_append_left hn, List.getElem?_eq_getElem hn]
  obtain ⟨hblank, hfirst⟩ := h.ends _ hchar
  cases hfirst.symm.trans (escapes_inside_glyph hglyphs hstays hn hchar hblank)

/-- Behind a glyph that stays in the word, the word ends where one ends in the rest. -/
theorem isWordEnd_glyph (hstays : glyph.staysInWord = true) {n : Nat} :
    IsWordEnd (glyph.written ++ rest) n ↔ ∃ m, n = m + glyph.written.length ∧ IsWordEnd rest m := by
  have hbehind := getElem?_behind_glyph hglyphs
  constructor
  · intro h
    obtain ⟨m, rfl⟩ := Nat.exists_eq_add_of_le' (h.length_le_of_glyph hglyphs hstays)
    have hlength := h.le_length
    rw [List.length_append] at hlength
    refine ⟨m, rfl, by omega, fun i hi c hc hblank => ?_, fun c hc => ?_⟩
    · rw [← (hbehind i).2]
      exact h.escaped _ (by omega) c ((hbehind i).1.trans hc) hblank
    · rw [← (hbehind m).2]
      exact h.ends c ((hbehind m).1.trans hc)
  · rintro ⟨m, rfl, h⟩
    have hlength := h.le_length
    refine ⟨by rw [List.length_append]; omega, fun i hi c hc hblank => ?_, fun c hc => ?_⟩
    · rcases Nat.lt_or_ge i glyph.written.length with hlt | hge
      · exact escapes_inside_glyph hglyphs hstays hlt hc hblank
      · obtain ⟨i, rfl⟩ := Nat.exists_eq_add_of_le' hge
        rw [(hbehind i).1] at hc
        rw [(hbehind i).2]
        exact h.escaped i (by omega) c hc hblank
    · rw [(hbehind m).1] at hc
      rw [(hbehind m).2]
      exact h.ends c hc

end Behind

theorem isWordEnd_pair {c : Char} {rest : Text} {n : Nat} :
    IsWordEnd ('\\' :: c :: rest) n ↔ ∃ m, n = m + 2 ∧ IsWordEnd rest m := by
  have hpair : (Glyph.pair c).staysInWord = true := rfl
  exact isWordEnd_glyph (glyphs_pair c rest) hpair

theorem isWordEnd_plain {c : Char} {rest : Text} (hblank : isBlank c = false)
    (h : c ≠ '\\' ∨ rest = []) {n : Nat} :
    IsWordEnd (c :: rest) n ↔ ∃ m, n = m + 1 ∧ IsWordEnd rest m := by
  have hplain : (Glyph.plain c).staysInWord = true := by simp [Glyph.staysInWord, hblank]
  exact isWordEnd_glyph (glyphs_plain h) hplain

/-- The scan finds the end of a word, and there is no other. -/
theorem isWordEnd_iff {text : Text} {s : Stretch} (h : takeWord 0 text = some s) {n : Nat} :
    IsWordEnd text n ↔ n = s.raw.length := by
  fun_induction takeWord 0 text generalizing s n with
  | case1 =>
    cases h
    exact isWordEnd_nil
  | case2 hexcess => exact absurd rfl hexcess
  | case3 c rest hblank =>
    cases h
    exact isWordEnd_blank hblank
  | case4 _ _ =>
    cases h
    rw [isWordEnd_plain rfl (.inr rfl)]
    simp [isWordEnd_nil]
  | case5 hexcess => exact absurd (Nat.zero_le 1) hexcess
  | case6 c rest _ ih =>
    obtain ⟨t, ht, rfl⟩ := Option.map_eq_some_iff.mp h
    rw [isWordEnd_pair]
    simp [ih ht, Stretch.after]
  | case7 c rest hblank hbackslash ih =>
    obtain ⟨t, ht, rfl⟩ := Option.map_eq_some_iff.mp h
    rw [isWordEnd_plain (by simpa using hblank) (.inl hbackslash)]
    simp [ih ht, Stretch.after]

/-! ## §3 Walks that are out of phase -/

/-- The text begins with backslashes, or none, and a blank stands behind the last of them. -/
def blankBehindBackslashes (text : Text) : Bool :=
  (text.dropWhile (· == '\\')).head?.any isBlank

theorem blankBehindBackslashes_backslash (rest : Text) :
    blankBehindBackslashes ('\\' :: rest) = blankBehindBackslashes rest := rfl

theorem blankBehindBackslashes_cons {c : Char} (h : c ≠ '\\') (rest : Text) :
    blankBehindBackslashes (c :: rest) = isBlank c := by
  simp [blankBehindBackslashes, h]

/-- Behind a character that is no backslash the scan is in phase. -/
theorem isWordEnd_cons_iff_of_ne {c : Char} (hc : c ≠ '\\') {rest : Text} {n : Nat}
    (h : IsWordEnd rest n) :
    IsWordEnd (c :: rest) (n + 1) ↔ blankBehindBackslashes (c :: rest) = false := by
  rw [blankBehindBackslashes_cons hc]
  cases hblank : isBlank c with
  | false => simp [isWordEnd_plain hblank (.inl hc), h]
  | true => simp [isWordEnd_blank hblank]

/-- A backslash that is the only one leaves the scan in phase unless a blank is behind it. -/
theorem isWordEnd_backslash_iff_of_ne {d : Char} (hd : d ≠ '\\') {rest : Text} {n : Nat}
    (h : IsWordEnd (d :: rest) n) :
    IsWordEnd ('\\' :: d :: rest) (n + 1) ↔ blankBehindBackslashes (d :: rest) = false := by
  rw [blankBehindBackslashes_cons hd, isWordEnd_pair]
  cases hblank : isBlank d with
  | false =>
    obtain ⟨m, rfl, hm⟩ := (isWordEnd_plain hblank (.inl hd)).mp h
    simp [hm]
  | true =>
    obtain rfl := (isWordEnd_blank hblank).mp h
    simp

/-- The scan from behind a backslash finds the end of the word unless the backslashes that follow
lead to a blank. Two more backslashes are a pair for the one walk and belong to two pairs for the
other, so they leave the question as it was. -/
theorem isWordEnd_backslash_iff {rest : Text} {n : Nat} (h : IsWordEnd rest n) :
    IsWordEnd ('\\' :: rest) (n + 1) ↔ blankBehindBackslashes rest = false := by
  induction rest using List.twoStepInduction generalizing n with
  | nil =>
    obtain rfl := isWordEnd_nil.mp h
    simp [isWordEnd_plain (show isBlank '\\' = false from rfl), h, blankBehindBackslashes]
  | singleton d =>
    by_cases hd : d = '\\'
    · subst hd
      obtain ⟨m, rfl, hm⟩ := (isWordEnd_plain rfl (.inr rfl)).mp h
      obtain rfl := isWordEnd_nil.mp hm
      simp [isWordEnd_pair, isWordEnd_nil, blankBehindBackslashes]
    · exact isWordEnd_backslash_iff_of_ne hd h
  | cons_cons d e rest ih _ =>
    by_cases hd : d = '\\'
    · subst hd
      obtain ⟨m, rfl, hm⟩ := isWordEnd_pair.mp h
      have hpair : IsWordEnd ('\\' :: '\\' :: e :: rest) (m + 2 + 1) ↔
          IsWordEnd (e :: rest) (m + 1) := by
        rw [isWordEnd_pair]
        simp
      rw [hpair, blankBehindBackslashes_backslash]
      by_cases he : e = '\\'
      · subst he
        exact ih hm
      · exact isWordEnd_cons_iff_of_ne he hm
    · exact isWordEnd_backslash_iff_of_ne hd h

/-- If the scan starts at the second character, it finds the end of the word unless the word
begins with backslashes and a blank stands behind the last of them. -/
theorem isWordEnd_cons_iff {c : Char} {rest : Text} {n : Nat} (h : IsWordEnd rest n) :
    IsWordEnd (c :: rest) (n + 1) ↔ blankBehindBackslashes (c :: rest) = false := by
  by_cases hc : c = '\\'
  · subst hc
    exact isWordEnd_backslash_iff h
  · exact isWordEnd_cons_iff_of_ne hc h

/-! ## §4 Words of a line -/

namespace Line

/-- A word that begins with no quote is read as a plain one. -/
theorem takePlain_of_takeElement {source : Text} {cursor next : Cursor} {c : Char} {rest : Text}
    {word : Word} (h : cursor.Inside source) (hrest : cursor.rest = c :: rest)
    (hquote : isQuote c = false)
    (htaken : takeElement (.whole source) cursor c rest = .ok (.word word, next)) :
    takePlain (.whole source) cursor [c] rest = .ok (word, next) := by
  have hplain : ∀ {result}, (takePlain (.whole source) cursor [c] rest).map asElement =
      .ok (.word word, result) → takePlain (.whole source) cursor [c] rest = .ok (word, result) := by
    intro result hmap
    obtain ⟨found, hfound, heq⟩ := map_eq_ok_iff.mp hmap
    cases heq
    exact hfound
  unfold takeElement at htaken
  rw [if_neg (by simp [hquote])] at htaken
  split at htaken
  · split at htaken
    · exact absurd rfl ((inside_of_takeFlag h hrest htaken).1 word)
    · exact hplain htaken
  · exact hplain htaken

/-- A plain word of the line begins and ends at the offsets. It is decoded from its first character
on and scanned from its second one on. -/
structure IsPlainWord (source : Text) (s e : Nat) (word : Word) : Prop where
  start_eq : word.start = s
  stop_eq : word.stop = e
  lt_stop : s < e
  le_length : e ≤ source.length
  text_eq : word.text = some ((glyphs ((source.drop s).take (e - s))).map Glyph.meant)
  isWordEnd : IsWordEnd (source.drop (s + 1)) (e - (s + 1))

theorem exists_mem_of_mem_wordsOf {placed : List (Int × Element)} {word : Word}
    (h : word ∈ wordsOf (placed.map Prod.snd)) :
    ∃ offset, (offset, Element.word word) ∈ placed := by
  obtain ⟨element, helement, hword⟩ := List.mem_filterMap.mp h
  obtain ⟨⟨offset, element⟩, hmem, rfl⟩ := List.mem_map.mp helement
  cases element with
  | word => exact ⟨offset, Option.some.inj hword ▸ hmem⟩
  | flag => cases hword

/-- A word stands at an offset of the line, and it is a plain one unless a quote is there. -/
theorem exists_isPlainWord {source : Text} {placed : List (Int × Element)} {offset : Int}
    {word : Word} (hreads : Reads (.whole source) (.ofWindow (.whole source)) placed)
    (hmem : (offset, Element.word word) ∈ placed) :
    ∃ (s : Nat) (c : Char), offset = s ∧ source[s]? = some c ∧
      (isQuote c = false → ∃ e, IsPlainWord source s e word) := by
  obtain ⟨cursor, next, c, rest, hstands, rfl, hrest, -, htaken⟩ :=
    hreads.exists_taken (stands_ofWindow source) hmem
  obtain ⟨s, hposition⟩ := Int.eq_ofNat_of_zero_le hstands.position_nonneg
  have hdrop := hstands.drop_eq.trans hrest
  have hchar := hstands.getElem?_eq hrest
  rw [hposition, Int.toNat_natCast] at hdrop hchar
  refine ⟨s, c, hposition, hchar, fun hquote => ?_⟩
  have hplain := takePlain_of_takeElement hstands.toInside hrest hquote htaken
  obtain ⟨tail, htail, heq⟩ := exists_takePlain_eq hstands.toInside
    (show cursor.rest = [c] ++ rest from hrest)
  cases heq.symm.trans hplain
  have happend := takeWord_append htail
  have hbehind : source.drop (s + 1) = rest := by
    rw [← List.drop_drop, hdrop, List.drop_one, List.tail_cons]
  have hlength := congrArg List.length hdrop
  have hlength' := congrArg List.length happend
  simp only [List.length_drop, List.length_cons, List.length_append] at hlength hlength'
  refine ⟨s + 1 + tail.raw.length, hposition, ?_, by omega, by omega, ?_, ?_⟩
  · simp only [hposition, List.length_append, List.length_singleton]
    omega
  · rw [hdrop, ← happend, show s + 1 + tail.raw.length - s = tail.raw.length + 1 by omega,
      List.take_succ_cons, List.take_left, ← decode_eq_map_glyphs]
    rfl
  · rw [hbehind, Nat.add_sub_cancel_left]
    exact (isWordEnd_iff htail).mpr rfl

/-- **The end of a plain word.** A line that was read has its words at offsets of their own, and
each that begins with no quote is decoded from its first character on, but its end is the one that
is found from its second character on. It is the end of the word as it is decoded, the first blank
that no backslash escapes or the end of the line, if and only if the word does not begin with
backslashes that lead to a blank. -/
theorem plainWords_of_read {source : Text} {parsed : Parsed}
    (h : read (.whole source) = .ok parsed) :
    ∃ placed, Reads (.whole source) (.ofWindow (.whole source)) placed ∧
      parsed.words = wordsOf (placed.map Prod.snd) ∧
      ∀ (offset : Int) (word : Word), (offset, Element.word word) ∈ placed →
        ∃ (s : Nat) (c : Char), offset = s ∧ source[s]? = some c ∧
          (isQuote c = false → ∃ e, IsPlainWord source s e word ∧
            (IsWordEnd (source.drop s) (e - s) ↔
              blankBehindBackslashes (source.drop s) = false)) := by
  obtain ⟨found, hfound, rfl⟩ := read_eq_ok_iff.mp h
  obtain ⟨placed, hreads, rfl⟩ := reads_of_elements hfound
  refine ⟨placed, hreads, rfl, fun offset word hmem => ?_⟩
  obtain ⟨s, c, hoffset, hchar, hword⟩ := exists_isPlainWord hreads hmem
  refine ⟨s, c, hoffset, hchar, fun hquote => ?_⟩
  obtain ⟨e, hplain⟩ := hword hquote
  obtain ⟨hs, -⟩ := List.getElem?_eq_some_iff.mp hchar
  have hlt := hplain.lt_stop
  refine ⟨e, hplain, ?_⟩
  rw [List.drop_eq_getElem_cons hs, show e - s = e - (s + 1) + 1 by omega]
  exact isWordEnd_cons_iff hplain.isWordEnd

/-- Of `x\ y \ z` the first word goes on over a blank and ends where it does as it is decoded. The
second one ends between a backslash and the blank that this one would escape. -/
theorem plainWords_of_read_two_blanks :
    let source := "x\\ y \\ z".toList
    let first : Word := ⟨0, 4, some "x y".toList⟩
    let second : Word := ⟨5, 6, some "\\".toList⟩
    ∃ parsed, read (.whole source) = .ok parsed ∧ first ∈ parsed.words ∧ second ∈ parsed.words ∧
      IsPlainWord source 0 4 first ∧ IsWordEnd source 4 ∧
      IsPlainWord source 5 6 second ∧ ¬ IsWordEnd (source.drop 5) 1 := by
  intro source first second
  obtain ⟨parsed, hparsed, hwords⟩ := Option.map_eq_some_iff.mp
    (show (read (.whole source)).toOption.map Parsed.words =
      some [first, second, ⟨7, 8, some "z".toList⟩] by decide +kernel)
  have hread := Match.eq_ok_of_toOption hparsed
  obtain ⟨placed, -, heq, hplain⟩ := plainWords_of_read hread
  have hquotes : source.all (!isQuote ·) = true := by decide
  have hword {word : Word} (hmem : word ∈ parsed.words) {s e : Nat} (hstart : word.start = s)
      (hstop : word.stop = e) : IsPlainWord source s e word ∧
        (IsWordEnd (source.drop s) (e - s) ↔ blankBehindBackslashes (source.drop s) = false) := by
    obtain ⟨offset, hplaced⟩ := exists_mem_of_mem_wordsOf (heq ▸ hmem)
    obtain ⟨s', c, -, hchar, hfound⟩ := hplain offset word hplaced
    have hplainChar := List.all_eq_true.mp hquotes c (List.mem_of_getElem? hchar)
    obtain ⟨e', hfound⟩ := hfound (by simpa using hplainChar)
    obtain rfl : s = s' := Int.ofNat.inj (hstart.symm.trans hfound.1.start_eq)
    obtain rfl : e = e' := Int.ofNat.inj (hstop.symm.trans hfound.1.stop_eq)
    exact hfound
  have hfirst : first ∈ parsed.words := by simp [hwords]
  have hsecond : second ∈ parsed.words := by simp [hwords]
  obtain ⟨hplain, hend⟩ := hword hfirst rfl rfl
  obtain ⟨hplain', hend'⟩ := hword hsecond rfl rfl
  exact ⟨parsed, hread, hfirst, hsecond, hplain, hend.mpr (by decide), hplain',
    fun h => absurd (hend'.mp h) (by decide)⟩

/-- A backslash at the beginning of a word does not keep the blank behind it from ending it. -/
theorem not_forall_isWordEnd :
    ¬ ∀ (source : Text) (parsed : Parsed) (placed : List (Int × Element)),
      read (.whole source) = .ok parsed →
      Reads (.whole source) (.ofWindow (.whole source)) placed →
      ∀ (s : Nat) (word : Word) (c : Char), ((s : Int), Element.word word) ∈ placed →
        source[s]? = some c → isQuote c = false →
        ∃ e : Nat, word.stop = e ∧ IsWordEnd (source.drop s) (e - s) := by
  intro hall
  have hfound : (elements (.whole "\\ a".toList) (.ofWindow (.whole "\\ a".toList))).toOption =
      some [.word ⟨0, 1, some "\\".toList⟩, .word ⟨2, 3, some "a".toList⟩] := by
    decide +kernel
  obtain ⟨placed, hreads, hmap⟩ := reads_of_elements (Match.eq_ok_of_toOption hfound)
  have hread := read_eq_ok_iff.mpr ⟨_, Match.eq_ok_of_toOption hfound, rfl⟩
  have hchars : (Cursor.ofWindow (.whole "\\ a".toList)).rest = '\\' :: " a".toList := by
    decide
  obtain ⟨element, next, others, -, -, rfl⟩ := hreads.cases_of_filled hchars rfl
  obtain ⟨rfl, -⟩ := List.cons.inj hmap
  obtain ⟨e, hstop, hend⟩ := hall _ _ _ hread hreads 0 ⟨0, 1, some "\\".toList⟩ '\\'
    List.mem_cons_self rfl rfl
  obtain rfl : 1 = e := Int.ofNat.inj hstop
  obtain ⟨-, hescaped⟩ := hend.ends ' ' rfl
  exact absurd hescaped (by decide)

end Line

end Synopsis
