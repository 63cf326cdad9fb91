/-
Synopsis.Text.Location — where in a text a problem was found.

An offset is shown as a column in its line, with the line below it and a caret
under the place. Offsets outside the text stand for the nearest end. Only the
line feed separates lines, and it belongs to the line it ends.
-/
import Synopsis.Text.Basic

namespace Synopsis

/-- An offset into a source text, and the text of the token found there if one was isolated. -/
structure Location where
  source : Text
  position : Int
  token : Option Text

namespace Location

/-- The offset within the text that is nearest to the position. -/
def offset (place : Location) : Nat := min place.position.toNat place.source.length

def before (place : Location) : Text :=
  ((place.source.take place.offset).reverse.takeWhile (· ≠ '\n')).reverse

def behind (place : Location) : Text := (place.source.drop place.offset).takeWhile (· ≠ '\n')

def line (place : Location) : Text := place.before ++ place.behind

/-- The column of the offset in its line, counted from one. -/
def column (place : Location) : Nat := place.before.length + 1

/-- The lines that show the place; an empty token text is not shown. -/
def lines (place : Location) : List Text :=
  let tokenLine := match place.token with
    | some (c :: cs) => ["  token: ".toList ++ c :: cs]
    | _ => []
  [ "  at column ".toList ++ Text.ofNat place.column,
    "    ".toList ++ place.line,
    "    ".toList ++ List.replicate place.before.length ' ' ++ ['^'] ] ++ tokenLine

def text (place : Location) : Text := Text.ofLines place.lines

end Location

/-- A problem found at an offset of a source text: what kind of text it is, and why it is
refused. -/
structure Diagnostic where
  heading : Text
  source : Text
  position : Int
  reason : Text

namespace Diagnostic

/-- The heading and the reason on one line, and the place below. -/
def message (d : Diagnostic) : Text :=
  d.heading ++ ": ".toList ++ d.reason ++ '\n' :: Location.text ⟨d.source, d.position, none⟩

end Diagnostic

end Synopsis
