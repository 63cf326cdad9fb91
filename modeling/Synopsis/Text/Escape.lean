/-
Synopsis.Text.Escape — what a backslash stands for.

A backslash and the character after it are a pair that stands for one
character. Pairs are read from left to right, so a backslash that ends a pair
starts none; a backslash with nothing after it stands for itself.
-/
import Synopsis.Text.Basic

namespace Synopsis

/-- The character that a backslash followed by the given character stands for: four
letters name control characters, and any other character stands for itself. -/
def escapedChar : Char → Char
  | 'n' => '\n'
  | 'r' => '\r'
  | 't' => '\t'
  | 'b' => '\x08'
  | c => c

/-- The text that is meant: every backslash pair replaced by what it stands for. -/
def decode : Text → Text
  | '\\' :: c :: rest => escapedChar c :: decode rest
  | c :: rest => c :: decode rest
  | [] => []

/-! ## §1 Equations -/

@[simp] theorem decode_nil : decode [] = [] := by simp [decode]

@[simp] theorem decode_pair (c : Char) (rest : Text) :
    decode ('\\' :: c :: rest) = escapedChar c :: decode rest := by simp [decode]

@[simp] theorem decode_lone_backslash : decode ['\\'] = ['\\'] := by simp [decode]

theorem decode_cons {c : Char} (h : c ≠ '\\') (rest : Text) :
    decode (c :: rest) = c :: decode rest := by
  rw [decode]
  intro _ _ h'
  simp_all

/-- A text without a backslash means itself. -/
theorem decode_of_no_backslash {text : Text} (h : '\\' ∉ text) : decode text = text := by
  induction text with
  | nil => simp
  | cons c rest ih =>
    simp only [List.mem_cons, not_or] at h
    rw [decode_cons (Ne.symm h.1), ih h.2]

end Synopsis
