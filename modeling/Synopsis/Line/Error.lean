/-
Synopsis.Line.Error — why a command line cannot be read.

A line is malformed if a quote is not closed or two hyphens have no key after
them. A line that merely does not fit a usage is not an error.
-/
import Synopsis.Fault
import Synopsis.Text.Location

namespace Synopsis

/-- What is wrong with a command line. -/
inductive LineError where
  /-- A quote that is not closed. -/
  | unclosedQuote (position : Int) (quote : Char)
  /-- Two hyphens without a key. -/
  | missingKey (position : Int)
deriving DecidableEq

namespace LineError

/-- The offset at which the faulty element begins. -/
def position : LineError → Int
  | .unclosedQuote position _ | .missingKey position => position

def unclosedReason (quote : Text) : Text := "unterminated ".toList ++ quote

def reason : LineError → Text
  | .unclosedQuote _ quote => unclosedReason [quote]
  | .missingKey _ => "-- not followed by key".toList

def diagnosticOf (line : Text) (position : Int) (reason : Text) : Diagnostic :=
  ⟨"Invalid command line".toList, line, position, reason⟩

def diagnostic (error : LineError) (line : Text) : Diagnostic :=
  diagnosticOf line error.position error.reason

end LineError

/-- Why reading or matching a line comes to no verdict. -/
inductive LineFailure where
  | malformed (error : LineError)
  | fault (fault : Fault)
deriving DecidableEq

end Synopsis
