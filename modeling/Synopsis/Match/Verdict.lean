/-
Synopsis.Match.Verdict — whether a line fits a usage.

A line fits if the tree matches all its words and every flag given was admitted
on the way. What is bound then are the captures of the match, and after them all
flags in the order of their table.
-/
import Synopsis.Match.Bindings
import Synopsis.Match.Node

namespace Synopsis

namespace Match

open Line (Parsed)

/-- What is found out about a line and a usage. -/
inductive Verdict where
  /-- The tree does not match the words. -/
  | mismatch
  /-- The tree matches, but has no use for a flag that was given. -/
  | strayFlag (key : Text)
  | fits (bindings : Bindings)
deriving DecidableEq

namespace Verdict

def bindings? : Verdict → Option Bindings
  | .fits bindings => some bindings
  | _ => none

end Verdict

def verdictOf (line : Parsed) (trail : Trail) : Verdict :=
  match line.flags.keys.find? (!trail.admitted.contains ·) with
  | some key => .strayFlag key
  | none => .fits ⟨trail.captures ++ line.flags⟩

def judge (tree : Node) (line : Parsed) : Except Fault Verdict :=
  match process line tree 0 true none {} with
  | (.fault fault, _) => .error fault
  | (.failed, _) => .ok .mismatch
  | (.reached _ _, memory) => .ok (verdictOf line memory.trail)

/-- The bindings of the part of a line that a window shows, if it fits. -/
def parseWindow (tree : Node) (w : Window) : Except LineFailure (Option Bindings) :=
  match Line.read w with
  | .error failure => .error failure
  | .ok line =>
    match judge tree line with
    | .error fault => .error (.fault fault)
    | .ok verdict => .ok verdict.bindings?

def parse (tree : Node) (line : Text) : Except LineFailure (Option Bindings) :=
  parseWindow tree (.whole line)

end Match

end Synopsis
