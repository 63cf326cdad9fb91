/-
Synopsis.Usage.Error — why a usage is refused.

Each way to spoil a usage is a cause of its own and knows the offset at which it
was noticed; an end that comes too soon is noticed at the end of the usage or at
the bracket that closes the group.
-/
import Synopsis.Text.Location

namespace Synopsis

/-- The two kinds of brackets that group. -/
inductive Bracket where
  | round
  | square
deriving DecidableEq

namespace Bracket

def opening : Bracket → Char
  | .round => '('
  | .square => '['

def closing : Bracket → Char
  | .round => ')'
  | .square => ']'

end Bracket

/-- Why a usage is refused. -/
inductive UsageError where
  /-- A `<` without a `>` after it. -/
  | unclosedParameter (position : Nat)
  /-- A repetition marker at the start or after a blank. -/
  | detachedMarker (position : Nat)
  /-- An opening bracket whose group does not end. -/
  | unclosedGroup (position : Nat) (bracket : Bracket)
  /-- A closing bracket without an opening one. -/
  | unmatchedClosing (position : Nat) (bracket : Bracket)
  /-- A repetition marker with nothing before it in its row. -/
  | standaloneMarker (position : Nat)
  /-- A flag that announces a value and has none. -/
  | missingValue (position : Nat)
  /-- An optional value whose bracket is not closed after it. -/
  | unclosedValue (position : Nat)
deriving DecidableEq

namespace UsageError

/-- The offset in the usage at which the problem was noticed. -/
def position : UsageError → Nat
  | .unclosedParameter position | .detachedMarker position | .unclosedGroup position _
  | .unmatchedClosing position _ | .standaloneMarker position | .missingValue position
  | .unclosedValue position => position

def reason : UsageError → Text
  | .unclosedParameter _ => "unterminated < (missing >)".toList
  | .detachedMarker _ => "... not directly after something".toList
  | .unclosedGroup _ bracket => "unterminated ".toList ++ [bracket.opening]
  | .unmatchedClosing _ bracket => "unmatched ".toList ++ [bracket.closing]
  | .standaloneMarker _ => "standalone ...".toList
  | .missingValue _ => "missing value in --key=value".toList
  | .unclosedValue _ => "missing ] in --key[=value]".toList

def diagnosticOf (usage : Text) (position : Int) (reason : Text) : Diagnostic :=
  ⟨"Invalid usage string".toList, usage, position, reason⟩

def diagnostic (error : UsageError) (usage : Text) : Diagnostic :=
  diagnosticOf usage error.position error.reason

end UsageError

end Synopsis
