/-
Synopsis.Text.Scan — where a word and a quoted stretch end.

Both scanners go through the characters of a window from left to right and pass
over a backslash together with the character after it. They take the excess of
the window as well: at its first unreadable offset they have no answer, unless
the window ends there. A backslash that is the last readable character takes one
unreadable offset with it without looking.
-/
import Synopsis.Text.Blank
import Synopsis.Text.Window

namespace Synopsis

/-! ## §1 Words -/

/-- A stretch that was read, the characters after it, and the number of unreadable offsets it
took with it (0 or 1). -/
structure Stretch where
  raw : Text
  rest : Text
  overrun : Nat

namespace Stretch

def after (s : Stretch) (front : Text) : Stretch := { s with raw := front ++ s.raw }

def width (s : Stretch) : Nat := s.raw.length + s.overrun

end Stretch

/-- The characters up to the first blank that no backslash escapes, `none` if an unreadable
offset comes first. -/
def takeWord (excess : Nat) : Text → Option Stretch
  | [] => if excess = 0 then some ⟨[], [], 0⟩ else none
  | c :: rest =>
    if isBlank c then some ⟨[], c :: rest, 0⟩
    else if c = '\\' then
      match rest with
      | [] => if excess ≤ 1 then some ⟨[c], [], excess⟩ else none
      | d :: rest => (takeWord excess rest).map (·.after [c, d])
    else (takeWord excess rest).map (·.after [c])

/-! ## §2 Delimited stretches -/

/-- How the search for a delimiter ends. -/
inductive Closing where
  /-- The characters before the delimiter and those after it. -/
  | found (raw rest : Text)
  /-- The window ends first. -/
  | absent
  /-- An unreadable offset comes first. -/
  | unreadable

namespace Closing

def after (front : Text) : Closing → Closing
  | .found raw rest => .found (front ++ raw) rest
  | .absent => .absent
  | .unreadable => .unreadable

theorem after_eq_found_iff {front raw rest : Text} {closing : Closing} :
    closing.after front = .found raw rest ↔
      ∃ raw', closing = .found raw' rest ∧ raw = front ++ raw' := by
  cases closing with
  | found raw' rest' =>
    simp only [after, found.injEq]
    constructor
    · rintro ⟨rfl, rfl⟩; exact ⟨raw', ⟨rfl, rfl⟩, rfl⟩
    · rintro ⟨_, ⟨rfl, rfl⟩, rfl⟩; exact ⟨rfl, rfl⟩
  | absent => simp [after]
  | unreadable => simp [after]

end Closing

/-- The characters up to the first delimiter that no backslash escapes. -/
def untilDelimiter (closes : Char → Bool) (excess : Nat) : Text → Closing
  | [] => if excess = 0 then .absent else .unreadable
  | c :: rest =>
    if closes c then .found [] rest
    else if c = '\\' then
      match rest with
      | [] => if excess ≤ 1 then .absent else .unreadable
      | d :: rest => (untilDelimiter closes excess rest).after [c, d]
    else (untilDelimiter closes excess rest).after [c]

/-! ## §3 Offsets -/

namespace Window

/-- The offset at which the word ends that begins with the window: a blank's or the window's
end. -/
def wordEnd? (w : Window) : Option Int :=
  (takeWord w.excess w.chars).map fun s => min (w.start + s.width) w.stop

/-- The offset of the first delimiter in the window that no backslash escapes, and -1 if there
is none. -/
def delimiterAt? (w : Window) (closes : Char → Bool) : Option Int :=
  match untilDelimiter closes w.excess w.chars with
  | .found raw _ => some (w.start + raw.length)
  | .absent => some (-1)
  | .unreadable => none

end Window

/-! ## §4 Equations -/

theorem takeWord_nil : takeWord 0 [] = some ⟨[], [], 0⟩ := rfl

/-- A word ends at a blank. -/
theorem takeWord_blank {c : Char} (h : isBlank c = true) (excess : Nat) (rest : Text) :
    takeWord excess (c :: rest) = some ⟨[], c :: rest, 0⟩ := by
  unfold takeWord
  exact if_pos h

/-- A word goes on with a character that is neither a blank nor a backslash. -/
theorem takeWord_cons {c : Char} (hblank : isBlank c = false) (hbackslash : c ≠ '\\')
    (excess : Nat) (rest : Text) :
    takeWord excess (c :: rest) = (takeWord excess rest).map (·.after [c]) := by
  rw [takeWord.eq_def]
  simp only [hblank, hbackslash, if_false, Bool.false_eq_true]

/-- A delimiter that is no backslash ends the stretch before it. -/
theorem untilDelimiter_close {closes : Char → Bool} {c : Char} (h : closes c = true)
    (excess : Nat) (rest : Text) :
    untilDelimiter closes excess (c :: rest) = .found [] rest := by
  unfold untilDelimiter
  exact if_pos h

/-- A backslash and the character after it belong to the stretch. -/
theorem untilDelimiter_pair {closes : Char → Bool} (h : closes '\\' = false) (excess : Nat)
    (c : Char) (rest : Text) :
    untilDelimiter closes excess ('\\' :: c :: rest) =
      (untilDelimiter closes excess rest).after ['\\', c] := by
  rw [untilDelimiter.eq_def]
  simp only [h, if_true, if_false, Bool.false_eq_true]

/-- Any other character belongs to the stretch. -/
theorem untilDelimiter_cons {closes : Char → Bool} {c : Char} (h : closes c = false)
    (hbackslash : c ≠ '\\') (excess : Nat) (rest : Text) :
    untilDelimiter closes excess (c :: rest) = (untilDelimiter closes excess rest).after [c] := by
  rw [untilDelimiter.eq_def]
  simp only [h, hbackslash, if_false, Bool.false_eq_true]

/-! ## §5 What is read and what is left -/

/-- A word and what follows it are the text it was read from. -/
theorem takeWord_append {excess : Nat} {text : Text} {s : Stretch}
    (h : takeWord excess text = some s) : s.raw ++ s.rest = text := by
  fun_induction takeWord excess text generalizing s with
  | case1 => simp_all only [Option.some.injEq]; subst h; rfl
  | case2 => simp at h
  | case3 => simp only [Option.some.injEq] at h; subst h; rfl
  | case4 => simp only [Option.some.injEq] at h; subst h; rfl
  | case5 => simp at h
  | case6 _ _ _ ih =>
    obtain ⟨t, ht, rfl⟩ := Option.map_eq_some_iff.1 h
    simp [Stretch.after, ih ht]
  | case7 _ _ _ _ ih =>
    obtain ⟨t, ht, rfl⟩ := Option.map_eq_some_iff.1 h
    simp [Stretch.after, ih ht]

/-- A delimited stretch, its delimiter and what follows are the text they were read from. -/
theorem untilDelimiter_append {closes : Char → Bool} {excess : Nat} {text raw rest : Text}
    (h : untilDelimiter closes excess text = .found raw rest) :
    ∃ c, closes c = true ∧ raw ++ c :: rest = text := by
  fun_induction untilDelimiter closes excess text generalizing raw rest with
  | case1 => simp at h
  | case2 => simp at h
  | case3 c _ hc => cases h; exact ⟨c, hc, rfl⟩
  | case4 => simp at h
  | case5 => simp at h
  | case6 _ _ _ ih =>
    obtain ⟨raw', hrest, rfl⟩ := Closing.after_eq_found_iff.1 h
    obtain ⟨e, he, heq⟩ := ih hrest
    exact ⟨e, he, by simp [heq]⟩
  | case7 _ _ _ _ ih =>
    obtain ⟨raw', hrest, rfl⟩ := Closing.after_eq_found_iff.1 h
    obtain ⟨e, he, heq⟩ := ih hrest
    exact ⟨e, he, by simp [heq]⟩

end Synopsis
