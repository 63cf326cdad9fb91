/-
Synopsis.Console — the program for the shell.

The program has two tools: one prints the compiled form of a usage, the other
matches a line against a usage and prints the bindings. Its own command line is
described by a usage too. Results go to the output, and problems to the error
output together with the events that are important enough: warnings, or all if
`--debug` is among the arguments. A usage is compiled once, the program's own
included.
-/
import Synopsis.Dispatch.CommandLine
import Synopsis.Text.Json

namespace Synopsis

namespace Console

open Dispatch (CommandLine Config)
open Match (Bindings)
open Usage (Cache)

def version : Text := "0.1.0".toList

/-! ## §1 The command line of the program -/

/-- What the program can do. -/
inductive Tool where
  | renderUsage
  | matchLine
deriving DecidableEq

def usage : Text :=
  ("[--debug] (help" ++
    " | render <usage> [--fix-ambiguity]" ++
    " | match <usage> <input> [--fix-ambiguity])").toList

def description : Text :=
  ("  render   print the compiled form of a usage string\n" ++
    "  match    match a quoted command line against a usage string and print the\n" ++
    "           bindings as JSON").toList

def config : Config := ⟨"usagetree".toList, usage, false, some description⟩

def handlers : List (List Text × Tool) :=
  [(["render".toList], .renderUsage), (["match".toList], .matchLine)]

/-- The argument that makes all events heard. -/
def debugArgument : Text := "--debug".toList

/-- The flag that makes a usage committed. -/
def committingKey : Text := "fix-ambiguity".toList

/-! ## §2 What is written -/

/-- Something for the error output. -/
inductive Notice where
  | event (event : Event)
  | line (text : Text)

/-- What a run of the program comes to. -/
structure Outcome where
  status : Int
  output : Text
  notices : List Notice

namespace Outcome

def after (events : List Event) (outcome : Outcome) : Outcome :=
  { outcome with notices := events.map .event ++ outcome.notices }

def problem (status : Int) (text : Text) : Outcome := ⟨status, [], [.line text]⟩

end Outcome

/-- An event is heard if it is a warning or if all events are wanted. -/
def isHeard (verbose : Bool) (event : Event) : Bool := verbose || event.level == .warning

def Notice.text (verbose : Bool) : Notice → Text
  | .event told => if isHeard verbose told then told.logLine ++ ['\n'] else []
  | .line content => content ++ ['\n']

/-! ## §3 The tools -/

def errorStatus : Int := 2

def mismatchStatus : Int := 1

def argument (bindings : Bindings) (name : String) : Text :=
  ((bindings.get? name.toList).getD none).getD []

/-- Printing the bindings of a line, if it fits. -/
def matchLine (tree : Node) (line : Text) : Outcome :=
  let (result, events) := Match.observeMatch tree line
  let outcome : Outcome := match result with
    | .error (.malformed error) => .problem errorStatus (error.diagnostic line).message
    | .error (.fault fault) => .problem errorStatus fault.message
    | .ok none => .problem mismatchStatus "no match".toList
    | .ok (some bindings) => ⟨0, Json.table bindings.table ++ ['\n'], []⟩
  outcome.after events

/-- What a tool does, with the trees compiled before. -/
def perform (cache : Cache) (tool : Tool) (bindings : Bindings) : Outcome :=
  let text := argument bindings "usage"
  let (result, events, _) := cache.observe ⟨text, some (bindings.contains committingKey)⟩
  let outcome : Outcome := match result, tool with
    | .error error, _ => .problem errorStatus (error.diagnostic text).message
    | .ok tree, .renderUsage => ⟨0, tree.usage ++ ['\n'], []⟩
    | .ok tree, .matchLine => matchLine tree (argument bindings "input")
  outcome.after events

/-! ## §4 The program -/

/-- A run of the program on an argument vector. -/
def run (argv : List Text) : Outcome :=
  let (compiled, compiling, cache) :=
    Cache.observe {} ⟨config.usage, some config.committing⟩
  match compiled with
  | .error error =>
    (Outcome.problem errorStatus (error.diagnostic config.usage).message).after compiling
  | .ok grammar =>
    let program : CommandLine Tool := ⟨config, grammar, handlers⟩
    let (decision, events) := program.decide argv
    let outcome : Outcome := match decision with
      | .error fault => .problem errorStatus fault.message
      | .ok .showHelp => ⟨CommandLine.helpStatus, program.help ++ ['\n'], []⟩
      | .ok (.handle _ tool bindings) => perform cache tool bindings
    outcome.after (compiling ++ events)

def errorText (argv : List Text) (outcome : Outcome) : Text :=
  outcome.notices.flatMap (Notice.text (argv.contains debugArgument))

end Console

end Synopsis
