/-
Synopsis.Text.Quoted — texts and tables of texts as messages show them.

A quoted text stands between two equal marks, single ones unless the text has a
single mark and no double one. The mark in use and the backslash get a backslash
before them; line feed, carriage return and tab are shown by a letter, other
unprintable characters by their code point in two, four or eight digits.
-/
import Synopsis.Text.Unprintable

namespace Synopsis

namespace Quoted

def mark (text : Text) : Char :=
  if '\x27' ∈ text ∧ '"' ∉ text then '"' else '\x27'

def char (mark c : Char) : Text :=
  if c = mark ∨ c = '\\' then ['\\', c]
  else if c = '\n' then ['\\', 'n']
  else if c = '\r' then ['\\', 'r']
  else if c = '\t' then ['\\', 't']
  else if !isUnprintable c then [c]
  else if c.toNat < 0x100 then '\\' :: 'x' :: Text.hexadecimal 2 c.toNat
  else if c.toNat < 0x10000 then '\\' :: 'u' :: Text.hexadecimal 4 c.toNat
  else '\\' :: 'U' :: Text.hexadecimal 8 c.toNat

def text (content : Text) : Text :=
  let m := mark content
  m :: content.flatMap (char m) ++ [m]

def value : Option Text → Text
  | some content => text content
  | none => "None".toList

def table (entries : List (Text × Option Text)) : Text :=
  let shown := entries.map fun (key, content) => text key ++ ": ".toList ++ value content
  "\x7b".toList ++ Text.joinWith ", ".toList shown ++ "\x7d".toList

end Quoted

end Synopsis
