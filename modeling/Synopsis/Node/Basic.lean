/-
Synopsis.Node.Basic — the tree that a usage stands for.

A node is a word of its own (`literal`), a place for any word (`parameter`), an
argument that may stand anywhere (`flag`, and `setting` if it carries a value),
a group of nodes (`sequence`, `choice`), or nothing (`empty`). A `hole` is a
place where no grammar has been filled in; no usage compiles to one.

Every node says whether it may be left out and whether it may be repeated
(`Occurrence`). The node for nothing has no use for these marks and keeps those
it has.
-/
import Synopsis.Text.Basic

namespace Synopsis

/-- How often the element may occur: not at all if optional, more than once if repeating. -/
structure Occurrence where
  optional : Bool := false
  repeating : Bool := false
deriving DecidableEq

/-- An element of a usage. -/
inductive Node where
  /-- A word that has to be given as it is. -/
  | literal (occ : Occurrence) (name : Text)
  /-- Any one word, captured under a name. -/
  | parameter (occ : Occurrence) (name : Text)
  /-- A flag without a value. -/
  | flag (occ : Occurrence) (key : Text)
  /-- A flag with a value; if the value node is optional, the value may be left out. -/
  | setting (occ : Occurrence) (key : Text) (value : Node)
  /-- All children, one after the other. -/
  | sequence (occ : Occurrence) (children : List Node)
  /-- Exactly one of the alternatives. -/
  | choice (occ : Occurrence) (alternatives : List Node)
  /-- Nothing at all. -/
  | empty (occ : Occurrence)
  /-- A place that has not been filled in. -/
  | hole (occ : Occurrence)

namespace Node

/-! ## §1 Occurrence -/

def occ : Node → Occurrence
  | .literal occ _ | .parameter occ _ | .flag occ _ | .setting occ _ _ | .sequence occ _
  | .choice occ _ | .empty occ | .hole occ => occ

def optional (node : Node) : Bool := node.occ.optional

def repeating (node : Node) : Bool := node.occ.repeating

/-- The node with other marks; the node for nothing keeps its own. -/
def withOcc (occ : Occurrence) : Node → Node
  | .literal _ name => .literal occ name
  | .parameter _ name => .parameter occ name
  | .flag _ key => .flag occ key
  | .setting _ key value => .setting occ key value
  | .sequence _ children => .sequence occ children
  | .choice _ alternatives => .choice occ alternatives
  | .empty own => .empty own
  | .hole _ => .hole occ

def setOptional (optional : Bool) (node : Node) : Node :=
  node.withOcc { node.occ with optional := optional }

def setRepeating (repeating : Bool) (node : Node) : Node :=
  node.withOcc { node.occ with repeating := repeating }

/-- The node with those marks replaced that are given. -/
def withFlags (optional repeating : Option Bool) (node : Node) : Node :=
  node.withOcc ⟨optional.getD node.optional, repeating.getD node.repeating⟩

def nothing : Node := .empty {}

instance : Inhabited Node := ⟨nothing⟩

def isEmpty : Node → Bool
  | .empty _ => true
  | _ => false

/-! ## §2 Position -/

mutual

/-- Whether the node takes its words from the place where it stands, as all nodes do that can
take a word. The question is left open by a hole that is reached before a positional node. -/
def positional? : Node → Option Bool
  | .literal _ _ | .parameter _ _ => some true
  | .flag _ _ | .setting _ _ _ | .empty _ => some false
  | .sequence _ children => anyPositional? children
  | .choice _ alternatives => anyPositional? alternatives
  | .hole _ => none

def anyPositional? : List Node → Option Bool
  | [] => some false
  | node :: nodes =>
    match node.positional? with
    | some true => some true
    | some false => anyPositional? nodes
    | none => none

end

/-- The node is known to be positional. -/
def positional (node : Node) : Bool := node.positional? == some true

/-- An open slot may be filled or left out, and what stands after it moves up if it is. -/
def isOpen (node : Node) : Bool := node.optional && node.positional

/-! ## §3 Literals -/

mutual

/-- The texts of the literals that can take a word, in their order. A flag's value takes none. -/
def literals : Node → List Text
  | .literal _ name => [name]
  | .sequence _ children => literalsOfAll children
  | .choice _ alternatives => literalsOfAll alternatives
  | _ => []

def literalsOfAll : List Node → List Text
  | [] => []
  | node :: nodes => node.literals ++ literalsOfAll nodes

end

/-! ## §4 Completeness -/

mutual

/-- The tree has no hole. -/
def isComplete : Node → Bool
  | .hole _ => false
  | .setting _ _ value => value.isComplete
  | .sequence _ children => areComplete children
  | .choice _ alternatives => areComplete alternatives
  | _ => true

def areComplete : List Node → Bool
  | [] => true
  | node :: nodes => node.isComplete && areComplete nodes

end

/-! ## §5 Marks and what they leave alone -/

@[simp] theorem withOcc_occ (node : Node) : node.withOcc node.occ = node := by
  cases node <;> rfl

@[simp] theorem positional?_withOcc (occ : Occurrence) (node : Node) :
    (node.withOcc occ).positional? = node.positional? := by
  cases node <;> simp [withOcc, positional?]

@[simp] theorem literals_withOcc (occ : Occurrence) (node : Node) :
    (node.withOcc occ).literals = node.literals := by
  cases node <;> simp [withOcc, literals]

end Node

end Synopsis
