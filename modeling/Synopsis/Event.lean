/-
Synopsis.Event — what is told about the work as it is done.

Compiling a usage and matching a line can be watched. `observeCompile`,
`Cache.observe` and `observeMatch` do what `compile`, `Cache.compile` and
`Match.parse` do and tell about it (`fst_observe`, `fst_observeMatch`).
-/
import Synopsis.Match.Verdict
import Synopsis.Node.Equality
import Synopsis.Node.Render
import Synopsis.Text.Quoted
import Synopsis.Usage.Cache

namespace Synopsis

/-! ## §1 Events -/

/-- How important an event is. -/
inductive Level where
  | debug
  | warning
deriving DecidableEq

/-- The part of the work that an event belongs to. -/
inductive Channel where
  | usage
  | line
  | dispatch
deriving DecidableEq

/-- Something that is told about the work. -/
inductive Event where
  /-- An ambiguous sequence was turned into a choice. -/
  | committed (sequence choice : Node)
  /-- A usage was compiled. -/
  | compiled (usage : Text) (tree : Node)
  /-- A line was read and is going to be matched. -/
  | matching (words : Nat) (flags : FlagTable) (tree : Node)
  /-- A flag was given that the match has no use for. -/
  | strayFlag (key : Text)
  /-- A line was matched or not. -/
  | judged (line : Text) (fits : Bool)
  /-- A handler was found for the keywords. -/
  | dispatching (keywords : List Text)
  /-- The arguments make no line that can be read. -/
  | unreadable (message : Text)
deriving DecidableEq

namespace Level

def name : Level → Text
  | .debug => "DEBUG".toList
  | .warning => "WARNING".toList

end Level

namespace Channel

def name : Channel → Text
  | .usage => "usagetree.parsing.usage_parser".toList
  | .line => "usagetree.parsing.input_parser".toList
  | .dispatch => "usagetree.dispatch.command_line".toList

end Channel

namespace Event

/-- Only arguments that make no line deserve a warning. -/
def level : Event → Level
  | .unreadable _ => .warning
  | _ => .debug

def channel : Event → Channel
  | .committed _ _ | .compiled _ _ => .usage
  | .matching _ _ _ | .strayFlag _ | .judged _ _ => .line
  | .dispatching _ | .unreadable _ => .dispatch

def message : Event → Text
  | .committed sequence choice =>
    "Rewrote ambiguous sequence ".toList ++ sequence.usage ++ " as ".toList ++ choice.usage
  | .compiled usage tree =>
    "Compiled usage ".toList ++ Quoted.text usage ++ " into ".toList ++ tree.usage
  | .matching words flags tree =>
    "Matching ".toList ++ Text.ofNat words ++ " positional tokens and floating arguments ".toList ++
      Quoted.table flags ++ " against ".toList ++ tree.usage
  | .strayFlag key => "Rejecting unrecognized floating argument --".toList ++ key
  | .judged line fits =>
    "Match ".toList ++ (if fits then "succeeded" else "failed").toList ++ " for ".toList ++
      Quoted.text line
  | .dispatching keywords => "Dispatching ".toList ++ Text.spaced keywords
  | .unreadable message => message

def logLine (event : Event) : Text :=
  event.level.name ++ ':' :: event.channel.name ++ ':' :: event.message

end Event

/-! ## §2 Compiling -/

namespace Usage

/-- The tree of a usage and the events on the way to it. -/
def observeCompile (usage : Text) (committing : Bool) : Except UsageError Node × List Event :=
  match parse usage with
  | .error error => (.error error, [])
  | .ok written =>
    let tree := if committing then written.commit else written
    let changes := if committing then written.committed else []
    (.ok tree,
      changes.map (fun (sequence, choice) => .committed sequence choice) ++ [.compiled usage tree])

/-- The answer to a request, the events on the way to it, and the cache afterwards. Nothing is
told about a tree that was kept. -/
def Cache.observe (cache : Cache) (request : Request) :
    Except UsageError Node × List Event × Cache :=
  let (answer, fresh, after) := cache.compile request
  let events :=
    if fresh then (observeCompile request.usage (request.committing.getD false)).2 else []
  (answer, events, after)

theorem fst_observe (cache : Cache) (request : Request) :
    (cache.observe request).1 = (cache.compile request).1 := rfl

end Usage

/-! ## §3 Matching -/

namespace Match

namespace Verdict

def events (line : Text) : Verdict → List Event
  | .mismatch => [.judged line false]
  | .strayFlag key => [.strayFlag key, .judged line false]
  | .fits _ => [.judged line true]

end Verdict

/-- The bindings of a line, if it fits, and the events on the way to them. -/
def observeMatch (tree : Node) (line : Text) :
    Except LineFailure (Option Bindings) × List Event :=
  match Line.read (.whole line) with
  | .error failure => (.error failure, [])
  | .ok parsed =>
    let begun := Event.matching parsed.words.length parsed.flags tree
    match judge tree parsed with
    | .error fault => (.error (.fault fault), [begun])
    | .ok verdict => (.ok verdict.bindings?, begun :: verdict.events line)

theorem fst_observeMatch (tree : Node) (line : Text) :
    (observeMatch tree line).1 = parse tree line := by
  unfold observeMatch parse parseWindow
  cases Line.read (.whole line) with
  | error failure => rfl
  | ok parsed => simp only; cases judge tree parsed <;> rfl

end Match

end Synopsis
