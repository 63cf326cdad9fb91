/-
Synopsis.Text.Json — a table of texts as a JSON object.

The object is written over several lines, one entry a line, and in the printing
characters of ASCII only: every other character has a short form or is given by
its UTF-16 code units.
-/
import Synopsis.Text.Basic

namespace Synopsis

namespace Json

def unit (n : Nat) : Text := '\\' :: 'u' :: Text.hexadecimal 4 n

/-- One character of a JSON string. Code points above U+FFFF are written as a surrogate pair. -/
def char (c : Char) : Text :=
  if c = '"' ∨ c = '\\' then ['\\', c]
  else if c = '\n' then ['\\', 'n']
  else if c = '\r' then ['\\', 'r']
  else if c = '\t' then ['\\', 't']
  else if c = '\x08' then ['\\', 'b']
  else if c = '\x0c' then ['\\', 'f']
  else if 0x20 ≤ c.toNat ∧ c.toNat < 0x7F then [c]
  else if c.toNat < 0x10000 then unit c.toNat
  else unit (0xD800 + (c.toNat - 0x10000) / 0x400) ++ unit (0xDC00 + (c.toNat - 0x10000) % 0x400)

def text (content : Text) : Text := '"' :: content.flatMap char ++ ['"']

def value : Option Text → Text
  | some content => text content
  | none => "null".toList

/-- A JSON object with one entry a line, indented by two spaces. -/
def table : List (Text × Option Text) → Text
  | [] => "\x7b\x7d".toList
  | entries =>
    let shown := entries.map fun (key, content) =>
      "\n  ".toList ++ text key ++ ": ".toList ++ value content
    "\x7b".toList ++ Text.joinWith [','] shown ++ "\n\x7d".toList

end Json

end Synopsis
