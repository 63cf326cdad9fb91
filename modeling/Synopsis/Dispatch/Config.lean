/-
Synopsis.Dispatch.Config — the description of a command line program.

A program has a name, a usage and perhaps a description, and it says whether the
usage is to be committed. The settings it is built from are checked one by one;
every setting that cannot be used is reported, in a fixed order. A configuration
does not change once it is built.
-/
import Synopsis.Text.Blank
import Synopsis.Word64

namespace Synopsis

namespace Dispatch

/-! ## §1 Settings -/

/-- A value that was set. -/
inductive Setting where
  | null
  | truth (value : Bool)
  | number (value : Int)
  | text (value : Text)
  /-- A list or a table, of which no setting has any use. -/
  | composite
deriving DecidableEq

/-- What can be set, in the order in which it is checked. -/
inductive Field where
  | programName
  | usage
  | committing
  | description
deriving DecidableEq

namespace Field

/-- The name under which a field is set. -/
def name : Field → Text
  | .programName => "program_name".toList
  | .usage => "usage".toList
  | .committing => "fix_ambiguity".toList
  | .description => "description".toList

end Field

/-- Why a setting cannot be used. -/
inductive Cause where
  | missing
  | notText
  | blankUsage
  | notTruth
  | unclearTruth
  /-- The configuration is already built. -/
  | frozen
deriving DecidableEq

namespace Cause

/-- The short name of the cause. -/
def kind : Cause → Text
  | .missing => "missing".toList
  | .notText => "string_type".toList
  | .blankUsage => "value_error".toList
  | .notTruth => "bool_type".toList
  | .unclearTruth => "bool_parsing".toList
  | .frozen => "frozen_instance".toList

def message : Cause → Text
  | .missing => "Field required".toList
  | .notText => "Input should be a valid string".toList
  | .blankUsage => "Value error, usage string must not be blank".toList
  | .notTruth => "Input should be a valid boolean".toList
  | .unclearTruth => "Input should be a valid boolean, unable to interpret input".toList
  | .frozen => "Instance is frozen".toList

end Cause

/-! ## §2 Checks -/

def yesWords : List Text := ["1", "on", "t", "true", "y", "yes"].map String.toList

def noWords : List Text := ["0", "off", "f", "false", "n", "no"].map String.toList

def checkText : Option Setting → Except Cause Text
  | none => .error .missing
  | some (.text value) => .ok value
  | some _ => .error .notText

/-- A usage has to be a text that is not blank. -/
def checkUsage (setting : Option Setting) : Except Cause Text :=
  match checkText setting with
  | .error cause => .error cause
  | .ok value => if Text.isBlankText value then .error .blankUsage else .ok value

/-- A setting that has to be a truth value or clearly stand for one, and is no if it is not
given. Words are compared without regard to the case of ASCII letters; a number that fits in no
word of 64 bits stands for nothing. -/
def checkTruth : Option Setting → Except Cause Bool
  | none => .ok false
  | some (.truth value) => .ok value
  | some (.number value) =>
    if value = 0 then .ok false
    else if value = 1 then .ok true
    else if fitsWord64 value then .error .unclearTruth
    else .error .notTruth
  | some (.text value) =>
    let word := value.map Char.toLower
    if noWords.contains word then .ok false
    else if yesWords.contains word then .ok true
    else .error .unclearTruth
  | some _ => .error .notTruth

/-- A setting that has to be a text or left open. -/
def checkDescription : Option Setting → Except Cause (Option Text)
  | none | some .null => .ok none
  | some (.text value) => .ok (some value)
  | some _ => .error .notText

/-! ## §3 Configurations -/

/-- The description of a command line program. -/
structure Config where
  programName : Text
  usage : Text
  committing : Bool
  description : Option Text
deriving DecidableEq

/-- A setting that cannot be used. -/
structure Problem where
  field : Text
  cause : Cause
deriving DecidableEq

def problemOf (field : Field) : Except Cause α → List Problem
  | .error cause => [⟨field.name, cause⟩]
  | .ok _ => []

namespace Config

/-- The configuration that the settings make, or all that is wrong with them. Settings of other
names are not looked at. -/
def ofSettings (settings : List (Text × Setting)) : Except (List Problem) Config :=
  let setting (field : Field) : Option Setting := settings.lookup field.name
  let programName := checkText (setting .programName)
  let usage := checkUsage (setting .usage)
  let committing := checkTruth (setting .committing)
  let description := checkDescription (setting .description)
  match programName, usage, committing, description with
  | .ok programName, .ok usage, .ok committing, .ok description =>
    .ok ⟨programName, usage, committing, description⟩
  | _, _, _, _ =>
    .error (problemOf .programName programName ++ problemOf .usage usage ++
      problemOf .committing committing ++ problemOf .description description)

/-- What is wrong with changing a setting of a configuration. -/
def change (_ : Config) (field : Text) : Problem := ⟨field, .frozen⟩

end Config

end Dispatch

end Synopsis
