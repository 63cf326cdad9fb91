/-
Synopsis.Proofs.Line.Places — where the elements of a line begin, and where it is malformed.

`Reads` says at which offsets of a line its elements begin. A cursor that goes through a
whole line stands at its offset: the text that is left is what the line has from there on
(`Cursor.Stands`). So each element that is found is the one that can be taken where it
begins (`Reads.exists_taken`), and what makes a line malformed, a quote or two hyphens,
is in the line at the offset that is given for it (`liesIn_of_read`).
-/
import Synopsis.Proofs.Line.Whole

namespace Synopsis

namespace Line

/-! ## §1 Where elements begin -/

/-- The elements that are read from the cursor to the end of the window, each with the offset at
which it begins. -/
inductive Reads (w : Window) : Cursor → List (Int × Element) → Prop where
  | finish {cursor : Cursor} (hrest : cursor.rest = []) (hexcess : cursor.excess = 0) :
    Reads w cursor []
  | blank {cursor : Cursor} {c : Char} {rest : Text} {placed : List (Int × Element)}
    (hrest : cursor.rest = c :: rest) (hblank : isBlank c = true)
    (hreads : Reads w (cursor.move 1 rest) placed) : Reads w cursor placed
  | element {cursor next : Cursor} {c : Char} {rest : Text} {element : Element}
    {placed : List (Int × Element)} (hrest : cursor.rest = c :: rest) (hblank : isBlank c = false)
    (htaken : takeElement w cursor c rest = .ok (element, next)) (hreads : Reads w next placed) :
    Reads w cursor ((cursor.position, element) :: placed)

/-- What is read are the elements, and each begins somewhere. -/
theorem reads_of_elements {w : Window} {cursor : Cursor} {found : List Element}
    (h : elements w cursor = .ok found) :
    ∃ placed, Reads w cursor placed ∧ placed.map Prod.snd = found := by
  fun_induction elements w cursor generalizing found with
  | case1 cursor hrest hexcess =>
    cases h
    exact ⟨[], .finish hrest hexcess, rfl⟩
  | case2 => cases h
  | case3 cursor c rest hrest hblank ih =>
    obtain ⟨placed, hreads, hfound⟩ := ih h
    exact ⟨placed, .blank hrest hblank hreads, hfound⟩
  | case4 => cases h
  | case5 cursor c rest hrest hblank element next htaken ih =>
    generalize hothers : elements w next = others at h
    cases others with
    | error failure => cases h
    | ok others =>
      cases h
      obtain ⟨placed, hreads, hfound⟩ := ih hothers
      exact ⟨(cursor.position, element) :: placed,
        .element hrest (by simpa using hblank) htaken hreads, by rw [List.map_cons, hfound]⟩

section Reading

variable {w : Window} {cursor : Cursor} {placed : List (Int × Element)}

/-- Nothing is read at the end. -/
theorem Reads.eq_nil (h : Reads w cursor placed) (hrest : cursor.rest = []) : placed = [] := by
  cases h with
  | finish => rfl
  | blank hcons => cases hrest.symm.trans hcons
  | element hcons => cases hrest.symm.trans hcons

/-- What is not blank begins an element. -/
theorem Reads.cases_of_filled {c : Char} {rest : Text} (h : Reads w cursor placed)
    (hrest : cursor.rest = c :: rest) (hblank : isBlank c = false) :
    ∃ element next others, takeElement w cursor c rest = .ok (element, next) ∧
      Reads w next others ∧ placed = (cursor.position, element) :: others := by
  cases h with
  | finish hnil => cases hrest.symm.trans hnil
  | blank hcons hblank' =>
    cases hrest.symm.trans hcons
    cases hblank.symm.trans hblank'
  | element hcons _ htaken hreads =>
    cases hrest.symm.trans hcons
    exact ⟨_, _, _, htaken, hreads, rfl⟩

/-- Blanks are passed over. -/
theorem Reads.skip {blanks tail : Text} (h : Reads w cursor placed)
    (hrest : cursor.rest = blanks ++ tail) (hblanks : ∀ c ∈ blanks, isBlank c = true) :
    Reads w (cursor.move blanks.length tail) placed := by
  induction blanks generalizing cursor with
  | nil =>
    have hself : cursor.move 0 tail = cursor := by
      obtain ⟨position, rest, excess⟩ := cursor
      obtain rfl : rest = tail := hrest
      simp [Cursor.move]
    simpa [hself] using h
  | cons c blanks ih =>
    have hmove : (cursor.move 1 (blanks ++ tail)).move blanks.length tail =
        cursor.move (c :: blanks).length tail := by
      simp only [Cursor.move, List.length_cons]
      congr 1
      omega
    cases h with
    | finish hnil => cases hrest.symm.trans hnil
    | blank hcons _ hreads =>
      cases hrest.symm.trans hcons
      rw [← hmove]
      exact ih hreads rfl fun d hd => hblanks d (by simp [hd])
    | element hcons hfilled =>
      cases hrest.symm.trans hcons
      cases (hblanks c (by simp)).symm.trans hfilled

/-- An element begins in a text that is not blank. -/
theorem Reads.begins {text tail : Text} (h : Reads w cursor placed)
    (hrest : cursor.rest = text ++ tail) (hfilled : ∃ c ∈ text, isBlank c = false) :
    ∃ offset ∈ (placed.map Prod.fst).head?, offset < cursor.position + text.length := by
  induction text generalizing cursor with
  | nil =>
    obtain ⟨c, hc, -⟩ := hfilled
    cases hc
  | cons c text ih =>
    cases hblank : isBlank c with
    | false =>
      obtain ⟨element, next, others, -, -, rfl⟩ := h.cases_of_filled hrest hblank
      exact ⟨cursor.position, rfl, by rw [List.length_cons]; omega⟩
    | true =>
      have hrest' : ∃ d ∈ text, isBlank d = false := by
        obtain ⟨d, hd, hfilled⟩ := hfilled
        rcases List.mem_cons.mp hd with rfl | hd
        · cases hblank.symm.trans hfilled
        · exact ⟨d, hd, hfilled⟩
      have hskip : Reads w (cursor.move 1 (text ++ tail)) placed :=
        h.skip (show cursor.rest = [c] ++ (text ++ tail) from hrest) fun d hd => by
          rwa [List.mem_singleton.mp hd]
      obtain ⟨offset, hmem, hlt⟩ := ih hskip rfl hrest'
      refine ⟨offset, hmem, ?_⟩
      simp only [Cursor.move, List.length_cons] at hlt ⊢
      omega

end Reading

/-! ## §2 Cursors that stand at their offset -/

/-- The cursor is inside the line, and the text that is left ends the line. -/
structure Cursor.Stands (source : Text) (cursor : Cursor) : Prop extends
    Cursor.Inside source cursor where
  suffix : cursor.rest <:+ source

theorem stands_ofWindow (source : Text) : (Cursor.ofWindow (.whole source)).Stands source where
  toInside := inside_ofWindow source
  suffix := by simp [Cursor.ofWindow]

namespace Cursor.Stands

variable {source : Text} {cursor : Cursor}

/-- The text that is left is what the line has from the offset on. -/
theorem drop_eq (h : cursor.Stands source) :
    source.drop cursor.position.toNat = cursor.rest := by
  have hnonneg := h.position_nonneg
  have hadd := h.position_add
  have hdrop := List.suffix_iff_eq_drop.mp h.suffix
  rw [show cursor.position.toNat = source.length - cursor.rest.length by omega]
  exact hdrop.symm

/-- The next character is the one that the line has at the offset. -/
theorem getElem?_eq {c : Char} {rest : Text} (h : cursor.Stands source)
    (hrest : cursor.rest = c :: rest) : source[cursor.position.toNat]? = some c := by
  have hhead := congrArg (·[0]?) (h.drop_eq.trans hrest)
  simpa [List.getElem?_drop] using hhead

protected theorem move {width : Nat} {rest : Text} (h : cursor.Stands source)
    (hlength : width + rest.length = cursor.rest.length) (hsuffix : rest <:+ cursor.rest) :
    (cursor.move width rest).Stands source :=
  ⟨h.toInside.move hlength, hsuffix.trans h.suffix⟩

/-- One character further on. -/
theorem next {c : Char} {rest : Text} (h : cursor.Stands source) (hrest : cursor.rest = c :: rest) :
    (cursor.move 1 rest).Stands source := by
  refine h.move ?_ ?_
  · rw [hrest, List.length_cons, Nat.add_comm]
  · rw [hrest]
    exact List.suffix_cons c rest

/-- Behind two hyphens and a key. -/
theorem behindKey {c d : Char} {rest : Text} (h : cursor.Stands source)
    (hrest : cursor.rest = c :: d :: rest) :
    (cursor.move ((rest.takeWhile isKeyChar).length + 2) (rest.dropWhile isKeyChar)).Stands
      source := by
  refine ⟨h.toInside.behindKey hrest, (List.dropWhile_suffix isKeyChar).trans ?_⟩
  refine List.IsSuffix.trans ?_ h.suffix
  rw [hrest]
  exact ⟨[c, d], rfl⟩

/-- Behind an element. -/
theorem taken {next : Cursor} {c : Char} {rest : Text} {element : Element}
    (h : cursor.Stands source) (hrest : cursor.rest = c :: rest)
    (htaken : takeElement (.whole source) cursor c rest = .ok (element, next)) :
    next.Stands source := by
  refine ⟨(inside_of_takeElement h.toInside hrest htaken).2, ?_⟩
  refine (suffix_of_takeElement htaken).trans (List.IsSuffix.trans ?_ h.suffix)
  rw [hrest]
  exact List.suffix_cons c rest

end Cursor.Stands

/-- An element that was found is the one that can be taken at its offset. -/
theorem Reads.exists_taken {source : Text} {cursor : Cursor} {placed : List (Int × Element)}
    {offset : Int} {element : Element} (h : Reads (.whole source) cursor placed)
    (hstands : cursor.Stands source) (hmem : (offset, element) ∈ placed) :
    ∃ (origin next : Cursor) (c : Char) (rest : Text), origin.Stands source ∧
      origin.position = offset ∧ origin.rest = c :: rest ∧ isBlank c = false ∧
      takeElement (.whole source) origin c rest = .ok (element, next) := by
  induction h with
  | finish => cases hmem
  | blank hrest _ _ ih => exact ih (hstands.next hrest) hmem
  | @element cursor next c rest first placed hrest hblank htaken _ ih =>
    rcases List.mem_cons.mp hmem with hfirst | hmem
    · cases hfirst
      exact ⟨cursor, next, c, rest, hstands, rfl, hrest, hblank, htaken⟩
    · exact ih (hstands.taken hrest htaken) hmem

end Line

/-! ## §3 Where a line is malformed -/

/-- What is wrong with a line is in it where it is said to be: the quote that is not closed, or the
two hyphens that have no key. -/
def LineError.LiesIn (source : Text) : LineError → Prop
  | .unclosedQuote position quote =>
    0 ≤ position ∧ Line.isQuote quote = true ∧ source[position.toNat]? = some quote
  | .missingKey position => 0 ≤ position ∧ ['-', '-'] <+: source.drop position.toNat

/-- There is a character at the offset that is given. -/
theorem LineError.LiesIn.position_lt {source : Text} {error : LineError}
    (h : error.LiesIn source) : 0 ≤ error.position ∧ error.position < source.length := by
  cases error with
  | unclosedQuote position quote =>
    obtain ⟨hnonneg, -, hquote⟩ := h
    obtain ⟨hlt, -⟩ := List.getElem?_eq_some_iff.mp hquote
    exact ⟨hnonneg, by simp only [LineError.position]; omega⟩
  | missingKey position =>
    obtain ⟨hnonneg, hhyphens⟩ := h
    have hlength := hhyphens.length_le
    simp only [List.length_cons, List.length_nil, List.length_drop] at hlength
    exact ⟨hnonneg, by simp only [LineError.position]; omega⟩

namespace Line

section Malformed

variable {w : Window} {source : Text} {cursor : Cursor} {error : LineError}

theorem malformed_of_takeQuoted {quote : Char} {rest : Text}
    (h : takeQuoted w cursor quote rest = .error (.malformed error)) :
    error = .unclosedQuote cursor.position quote := by
  unfold takeQuoted at h
  split at h
  · cases h
  · cases h
    rfl
  · simp only at h
    split at h
    · cases h
      rfl
    · cases h

/-- A plain word cannot be malformed. -/
theorem takePlain_ne_malformed (front rest : Text) (error : LineError) :
    takePlain w cursor front rest ≠ .error (.malformed error) := by
  unfold takePlain
  split <;> simp

theorem liesIn_of_takeQuoted {quote : Char} {rest : Text} (h : cursor.Stands source)
    (hrest : cursor.rest = quote :: rest) (hquote : isQuote quote = true)
    (hfailed : takeQuoted w cursor quote rest = .error (.malformed error)) :
    error.LiesIn source := by
  rw [malformed_of_takeQuoted hfailed]
  exact ⟨h.position_nonneg, hquote, h.getElem?_eq hrest⟩

theorem liesIn_of_takeValue (h : cursor.Stands source)
    (hfailed : takeValue w cursor = .error (.malformed error)) : error.LiesIn source := by
  unfold takeValue at hfailed
  split at hfailed
  · rename_i failure hword
    cases hfailed
    unfold takeQuotedOrPlain at hword
    split at hword
    · exact absurd hword (takePlain_ne_malformed _ _ _)
    · rename_i c rest hrest
      split at hword
      · rename_i hquote
        exact liesIn_of_takeQuoted h hrest hquote hword
      · exact absurd hword (takePlain_ne_malformed _ _ _)
  · split at hfailed
    · cases hfailed
    · cases hfailed

theorem liesIn_of_takeFlag {rest : Text} (h : cursor.Stands source)
    (hrest : cursor.rest = '-' :: '-' :: rest)
    (hfailed : takeFlag w cursor rest = .error (.malformed error)) : error.LiesIn source := by
  unfold takeFlag at hfailed
  simp only at hfailed
  split at hfailed
  · cases hfailed
  · split at hfailed
    · cases hfailed
      exact ⟨h.position_nonneg, rest, by rw [h.drop_eq, hrest]; rfl⟩
    · split at hfailed
      · rename_i after hafter
        exact liesIn_of_takeValue ((h.behindKey hrest).next hafter) (map_eq_error_iff.mp hfailed)
      · cases hfailed

theorem liesIn_of_takeElement {c : Char} {rest : Text} (h : cursor.Stands source)
    (hrest : cursor.rest = c :: rest)
    (hfailed : takeElement w cursor c rest = .error (.malformed error)) : error.LiesIn source := by
  unfold takeElement at hfailed
  split at hfailed
  · rename_i hquote
    exact liesIn_of_takeQuoted h hrest hquote (map_eq_error_iff.mp hfailed)
  · split at hfailed
    · split at hfailed
      · exact liesIn_of_takeFlag h hrest hfailed
      · exact absurd (map_eq_error_iff.mp hfailed) (takePlain_ne_malformed _ _ _)
    · exact absurd (map_eq_error_iff.mp hfailed) (takePlain_ne_malformed _ _ _)

theorem liesIn_of_elements (h : cursor.Stands source)
    (hfailed : elements (.whole source) cursor = .error (.malformed error)) :
    error.LiesIn source := by
  fun_induction elements (.whole source) cursor with
  | case1 => cases hfailed
  | case2 => cases hfailed
  | case3 cursor c rest hrest _ ih => exact ih (h.next hrest) hfailed
  | case4 cursor c rest hrest _ failure htaken =>
    cases hfailed
    exact liesIn_of_takeElement h hrest htaken
  | case5 cursor c rest hrest _ element next htaken ih =>
    exact ih (h.taken hrest htaken) (map_eq_error_iff.mp hfailed)

/-- What is wrong with a line that cannot be read is in the line where it is said to be. -/
theorem liesIn_of_read (hfailed : read (.whole source) = .error (.malformed error)) :
    error.LiesIn source :=
  liesIn_of_elements (stands_ofWindow source) (map_eq_error_iff.mp hfailed)

end Malformed

end Line

end Synopsis
