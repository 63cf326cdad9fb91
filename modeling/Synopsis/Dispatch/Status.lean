/-
Synopsis.Dispatch.Status — the exit status that a handler asks for.

A handler that returns nothing has done its work, which is status 0. Truth values
count as 1 and 0, and a text has to be a decimal numeral.
-/
import Synopsis.Fault
import Synopsis.Text.Numeral

namespace Synopsis

namespace Dispatch

/-- What a handler may return. -/
inductive Returned where
  | nothing
  | truth (value : Bool)
  | number (value : Int)
  | text (value : Text)
deriving DecidableEq

/-- Why a run ends without a status. -/
inductive RunError where
  | fault (fault : Fault)
  /-- The handler returned a text that is no numeral. -/
  | notNumeral (text : Text) (cause : Numeral.Error)
deriving DecidableEq

namespace RunError

def message : RunError → Text
  | .fault cause => cause.message
  | .notNumeral text cause => cause.message text

end RunError

namespace Returned

/-- The status that is asked for. -/
def status : Returned → Except RunError Int
  | .nothing => .ok 0
  | .truth answer => .ok (if answer then 1 else 0)
  | .number n => .ok n
  | .text numeral => (Numeral.read numeral).mapError (.notNumeral numeral)

end Returned

end Dispatch

end Synopsis
