/-
Synopsis.Dispatch.CommandLine — handing matched lines to handlers.

A command line program has a compiled usage and handlers, each registered for a
path of literals. The keywords of a match are the words its literals took, and
the handler with the longest path that the keywords begin with is called. If the
arguments do not fit, or no handler has such a path, the help is shown.
-/
import Synopsis.Dispatch.Argument
import Synopsis.Dispatch.Config
import Synopsis.Dispatch.Status
import Synopsis.Event

namespace Synopsis

namespace Dispatch

open Match (Bindings)

/-! ## §1 Registration -/

/-- Why a handler cannot be registered. -/
inductive RegisterError where
  /-- The path has a handler. -/
  | taken
  /-- These keywords are no literals of the usage. -/
  | unknown (keywords : List Text)
deriving DecidableEq

namespace RegisterError

def reason : RegisterError → Text
  | .taken => "a handler is already registered".toList
  | .unknown keywords =>
    Text.joinWith ", ".toList keywords ++ " not a literal of the usage string".toList

def messageOf (path : List Text) (reason : Text) : Text :=
  "Cannot register handler for '".toList ++ Text.spaced path ++ "': ".toList ++ reason

end RegisterError

/-- A program with its handlers in the order of their registration. -/
structure CommandLine (H : Type) where
  config : Config
  grammar : Node
  handlers : List (List Text × H)

namespace CommandLine

variable {H : Type}

def ofConfig (config : Config) : Except UsageError (CommandLine H) :=
  (Usage.compile config.usage config.committing).map fun grammar => ⟨config, grammar, []⟩

def handler? (commandLine : CommandLine H) (path : List Text) : Option H :=
  commandLine.handlers.lookup path

/-- The program with a handler for one path more. -/
def register (commandLine : CommandLine H) (path : List Text) (handler : H) :
    Except RegisterError (CommandLine H) :=
  if (commandLine.handler? path).isSome then .error .taken
  else
    match path.filter (!commandLine.grammar.literals.contains ·) with
    | [] => .ok { commandLine with handlers := commandLine.handlers ++ [(path, handler)] }
    | unknown => .error (.unknown unknown)

/-! ## §2 Keywords -/

/-- The texts that are bound under the keys of literals. -/
def keywords (bindings : Bindings) : List (Option Text) :=
  (bindings.captures.filter fun (key, _) => Match.unnamedStem.isPrefixOf key).map Prod.snd

/-- The longest of the first `count` beginnings of the keywords that is registered, with its
handler. -/
def longest (commandLine : CommandLine H) (keywords : List (Option Text)) :
    Nat → Option (List Text × H)
  | 0 => none
  | count + 1 =>
    let found := do
      let path ← (keywords.take (count + 1)).mapM id
      let handler ← commandLine.handler? path
      return (path, handler)
    found.or (commandLine.longest keywords count)

/-- The handler that a match is handed to, and its path. -/
def resolve (commandLine : CommandLine H) (bindings : Bindings) : Option (List Text × H) :=
  let keywords := keywords bindings
  commandLine.longest keywords keywords.length

/-! ## §3 Runs -/

def parse (commandLine : CommandLine H) (argv : List Text) :
    Except LineFailure (Option Bindings) :=
  Match.parse commandLine.grammar (joinArguments argv)

/-- What is done with an argument vector. -/
inductive Decision (H : Type) where
  | showHelp
  | handle (path : List Text) (handler : H) (bindings : Bindings)

/-- What is done with an argument vector, and the events on the way to it. -/
def decide (commandLine : CommandLine H) (argv : List Text) :
    Except Fault (Decision H) × List Event :=
  let line := joinArguments argv
  match Match.observeMatch commandLine.grammar line with
  | (.error (.fault fault), events) => (.error fault, events)
  | (.error (.malformed error), events) =>
    (.ok .showHelp, events ++ [.unreadable (error.diagnostic line).message])
  | (.ok none, events) => (.ok .showHelp, events)
  | (.ok (some bindings), events) =>
    match commandLine.resolve bindings with
    | none => (.ok .showHelp, events)
    | some (path, handler) =>
      (.ok (.handle path handler bindings), events ++ [.dispatching path])

/-- The help: the usage as it was compiled, and the description if there is one. -/
def help (commandLine : CommandLine H) : Text :=
  let banner := "Usage: ".toList ++ commandLine.config.programName ++ ' ' ::
    commandLine.grammar.usage
  match commandLine.config.description with
  | some (c :: description) => Text.ofLines [banner, [], c :: description]
  | _ => banner

def helpStatus : Int := 1

/-- What a run does: the handlers called with their bindings, the text written, the status, and
the events. -/
structure Report (H : Type) where
  calls : List (H × Bindings)
  output : Text
  status : Except RunError Int
  events : List Event

/-- Running the program on an argument vector; `perform` is what handlers return. -/
def run (commandLine : CommandLine H) (perform : H → Bindings → Returned) (argv : List Text) :
    Report H :=
  match commandLine.decide argv with
  | (.error fault, events) => ⟨[], [], .error (.fault fault), events⟩
  | (.ok .showHelp, events) => ⟨[], commandLine.help ++ ['\n'], .ok helpStatus, events⟩
  | (.ok (.handle _ handler bindings), events) =>
    ⟨[(handler, bindings)], [], (perform handler bindings).status, events⟩

end CommandLine

end Dispatch

end Synopsis
