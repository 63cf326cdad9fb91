/-
Synopsis.Text.Numeral — integers written in decimal.

A numeral is an optional sign and digits of any script, with single underscores
between digits if wanted and blanks around it. The information separators U+001C
to U+001F are blanks elsewhere, but not here. The number of digits is bounded,
because the time to read a numeral grows with its square; one that is too long is
refused before what follows it is looked at.
-/
import Synopsis.Text.Blank
import Synopsis.Text.Digit
import Synopsis.Text.Quoted

namespace Synopsis

namespace Numeral

/-! ## §1 Digits -/

def isDigitOrGroup (c : Char) : Bool := c == '_' || (digitValue? c).isSome

/-- The values of the digits that go on a numeral; an underscore has to be followed by a digit. -/
def digitsFrom? : Text → Option (List Nat)
  | [] => some []
  | '_' :: c :: rest => (digitValue? c).bind fun value => (digitsFrom? rest).map (value :: ·)
  | c :: rest => (digitValue? c).bind fun value => (digitsFrom? rest).map (value :: ·)

/-- The values of the digits of a numeral; there is at least one, and it comes first. -/
def digits? : Text → Option (List Nat)
  | [] => none
  | c :: rest => (digitValue? c).bind fun value => (digitsFrom? rest).map (value :: ·)

/-- The number with the given digits, the highest first. -/
def ofDigits (digits : List Nat) : Nat := digits.foldl (fun n digit => 10 * n + digit) 0

/-! ## §2 Numerals -/

/-- The greatest number of digits of a numeral, underscores not counted. -/
def maxDigits : Nat := 4300

/-- Why a text is not read as a numeral. -/
inductive Error where
  | malformed
  /-- There are more digits than a numeral may have. -/
  | tooLong (digits : Nat)
deriving DecidableEq

/-- What is wrong with the text, in words. Of a text that is no numeral 200 characters are shown,
marks and escapes included. -/
def Error.message (text : Text) : Error → Text
  | .malformed => "invalid literal for int() with base 10: ".toList ++ (Quoted.text text).take 200
  | .tooLong digits =>
    "Exceeds the limit (".toList ++ Text.ofNat maxDigits ++
      " digits) for integer string conversion: value has ".toList ++ Text.ofNat digits ++
      " digits; use sys.set_int_max_str_digits() to increase the limit".toList

def isMargin (c : Char) : Bool := isBlank c && !(0x1C ≤ c.toNat && c.toNat ≤ 0x1F)

/-- The number that a numeral without a sign stands for; blanks may follow it. -/
def unsigned (text : Text) : Except Error Nat :=
  match digits? (text.takeWhile isDigitOrGroup) with
  | none => .error .malformed
  | some digits =>
    if maxDigits < digits.length then .error (.tooLong digits.length)
    else if (text.dropWhile isDigitOrGroup).all isMargin then .ok (ofDigits digits)
    else .error .malformed

def read (text : Text) : Except Error Int :=
  match text.dropWhile isMargin with
  | '-' :: rest => (unsigned rest).map fun n => -(n : Int)
  | '+' :: rest => (unsigned rest).map Int.ofNat
  | rest => (unsigned rest).map Int.ofNat

end Numeral

end Synopsis
