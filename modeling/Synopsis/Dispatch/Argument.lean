/-
Synopsis.Dispatch.Argument — an argument vector as one command line.

Arguments are joined with spaces. One that could be read in another way is put in
double quotes, with a backslash before every quote and backslash in it. A flag
keeps its key as it is, since a key cannot be quoted; only its value is.
-/
import Synopsis.Text.Blank
import Synopsis.Usage.Alphabet

namespace Synopsis

namespace Dispatch

def needsQuotes (c : Char) : Bool := isBlank c || c == '"' || c == '\x27' || c == '\\'

/-- A word that is read as it is written. -/
def isPlainWord (word : Text) : Bool :=
  !word.isEmpty && !startsWithHyphens word && !word.any needsQuotes

/-- A word such that it is read as this word. -/
def quote (word : Text) : Text :=
  if isPlainWord word then word
  else
    '"' :: word.flatMap (fun c => if c = '\\' ∨ c = '"' then ['\\', c] else [c]) ++ ['"']

/-- The argument is a flag: two hyphens and something after them. -/
def isFlagArgument (argument : Text) : Bool := startsWithHyphens argument && 2 < argument.length

def quoteArgument (argument : Text) : Text :=
  if isFlagArgument argument then
    match argument.dropWhile (· ≠ '=') with
    | [] => argument
    | separator :: value => argument.takeWhile (· ≠ '=') ++ separator :: quote value
  else quote argument

def joinArguments (argv : List Text) : Text := Text.spaced (argv.map quoteArgument)

end Dispatch

end Synopsis
