/-
Synopsis.Text.Basic — texts as lists of characters.

Every offset, length and column of the library counts characters, so a text is
kept as the list of them. The module has the few operations on such lists that
several others share: numerals, joining, and the order in which sets of
texts are shown.
-/
namespace Synopsis

/-- A text is the list of its characters; an offset counts characters. -/
abbrev Text := List Char

namespace Text

def ofNat (n : Nat) : Text := Nat.toDigits 10 n

/-- The hexadecimal numeral of a natural number, filled up with zeros to the given width. -/
def hexadecimal (width n : Nat) : Text :=
  let digits := Nat.toDigits 16 n
  List.replicate (width - digits.length) '0' ++ digits

def joinWith (separator : Text) : List Text → Text
  | [] => []
  | [part] => part
  | part :: next :: parts => part ++ separator ++ joinWith separator (next :: parts)

def spaced (parts : List Text) : Text := joinWith [' '] parts

def ofLines (lines : List Text) : Text := joinWith ['\n'] lines

/-- A collection of texts as a set: each text once, in the order of code points. -/
def sortedSet (texts : List Text) : List Text :=
  texts.eraseDups.mergeSort (fun a b => !decide (b < a))

end Text

end Synopsis
