/-
Synopsis.Node.Value — the values that a flag may have.

The node after a flag's `=` describes one value. A choice admits what one of its
alternatives admits. Sequences, flags and holes admit no value, and the empty
value is admitted where nothing or something optional is described.
-/
import Synopsis.Node.Basic

namespace Synopsis

namespace Node

mutual

/-- The text is a value of a flag that is described by the node. -/
def admits (value : Text) : Node → Bool
  | .literal occ name => (value.isEmpty && occ.optional) || name == value
  | .parameter _ _ => true
  | .choice occ alternatives => (value.isEmpty && occ.optional) || anyAdmits value alternatives
  | .empty _ => value.isEmpty
  | .flag occ _ | .setting occ _ _ | .sequence occ _ | .hole occ => value.isEmpty && occ.optional

def anyAdmits (value : Text) : List Node → Bool
  | [] => false
  | node :: nodes => node.admits value || anyAdmits value nodes

end

/-- What is given for a flag that is described by the node: a value it admits, or none at all if
the value may be left out. -/
def admitsGiven (given : Option Text) (node : Node) : Bool :=
  match given with
  | some value => node.admits value
  | none => node.optional

end Node

end Synopsis
