/-
Synopsis.Text.Blank — the characters that separate words.

Blank characters are the Unicode white space characters together with the four
information separators U+001C to U+001F, which count as paragraph or segment
separators in bidirectional text. Zero width characters are not blank.
-/
import Synopsis.Text.Basic

namespace Synopsis

/-- The blank characters, as inclusive ranges of code points in increasing order. -/
def blankRanges : List (Nat × Nat) :=
  [ (0x0009, 0x000D), (0x001C, 0x0020), (0x0085, 0x0085), (0x00A0, 0x00A0),
    (0x1680, 0x1680), (0x2000, 0x200A), (0x2028, 0x2029), (0x202F, 0x202F),
    (0x205F, 0x205F), (0x3000, 0x3000) ]

def isBlank (c : Char) : Bool :=
  blankRanges.any fun (first, last) => first ≤ c.toNat && c.toNat ≤ last

namespace Text

def isBlankText (text : Text) : Bool := text.all isBlank

end Text

end Synopsis
