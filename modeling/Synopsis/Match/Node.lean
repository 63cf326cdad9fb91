/-
Synopsis.Match.Node — matching the nodes of a tree.

Every node is matched against the words of a line from some word on, and against
the flags of the line wherever they stand. A literal takes one equal word and
captures it under the word's number; a parameter takes any word and captures it
under its own name. A flag takes no word: it is there if its key was given, and
it has to be given with a value its node admits.
-/
import Synopsis.Line.Token
import Synopsis.Match.Search
import Synopsis.Node.Value

namespace Synopsis

namespace Match

open Line (Parsed)

/-! ## §1 Leaves -/

/-- The beginning of the keys under which literals are captured. -/
def unnamedStem : Text := "unnamed_".toList

def unnamedKey (token : Nat) : Text := unnamedStem ++ Text.ofNat token

def takeToken (line : Parsed) (key : Text) (passes : Text → Bool) (token : Nat) (trail : Trail) :
    Attempt × Trail :=
  match line.words[token]? with
  | none => (.refused, trail)
  | some word =>
    match word.text with
    | none => (.fault .outOfRange, trail)
    | some text =>
      if passes text then (.upTo (token + 1), trail.capture key text) else (.refused, trail)

/-- A flag, of which is said what may be given with it. -/
def takeFlag (line : Parsed) (key : Text) (accepts : Option Text → Bool) (token : Nat)
    (trail : Trail) : Attempt × Trail :=
  match line.flags.get? key with
  | none => (.refused, trail)
  | some given => if accepts given then (.upTo token, trail.allow key) else (.barred, trail)

def takeHole (line : Parsed) (token : Nat) (trail : Trail) : Attempt × Trail :=
  if token < line.words.length then (.fault .unsupported, trail) else (.refused, trail)

/-! ## §2 Nodes -/

mutual

/-- How a node is matched once. -/
def matcher (line : Parsed) : Node → Matcher
  | .literal _ name => .ofTrail fun token => takeToken line (unnamedKey token) (· == name) token
  | .parameter _ name => .ofTrail (takeToken line name fun _ => true)
  | .flag _ key => .ofTrail (takeFlag line key Option.isNone)
  | .setting _ key value => .ofTrail (takeFlag line key fun given => value.admitsGiven given)
  | .sequence _ children => .sequence line.words.length (slots line children)
  | .choice _ alternatives => .choice line.words.length (slots line alternatives)
  | .empty _ => .ofTrail fun token trail => (.upTo token, trail)
  | .hole _ => .ofTrail (takeHole line)

def slots (line : Parsed) : List Node → List Slot
  | [] => []
  | node :: nodes => ⟨matcher line node, node.occ, node.positional?⟩ :: slots line nodes

end

/-- A node as a sequence sees it. -/
def slotOf (line : Parsed) (node : Node) : Slot := ⟨matcher line node, node.occ, node.positional?⟩

theorem slots_eq_map (line : Parsed) (nodes : List Node) :
    slots line nodes = nodes.map (slotOf line) := by
  induction nodes with
  | nil => simp [slots]
  | cons node nodes ih => simp [slots, slotOf, ih]

/-- Matching a node once. -/
def attempt (line : Parsed) (node : Node) (token : Nat) (last : Bool) (memory : Memory) :
    Attempt × Memory :=
  (matcher line node).attempt token last memory

/-- Matching a node with its marks. -/
def process (line : Parsed) (node : Node) (token : Nat) (last : Bool) (limit : Option Nat)
    (memory : Memory) : Progress × Memory :=
  (slotOf line node).process line.words.length token last limit memory

end Match

end Synopsis
