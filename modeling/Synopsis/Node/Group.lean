/-
Synopsis.Node.Group — building groups from their members.

A sequence is optional if all its children are. A choice is optional if some
alternative is, and an alternative that is nothing is not kept but makes the
choice optional as well: `(|x)` and `(x|)` both mean `[x]`.
-/
import Synopsis.Node.Basic

namespace Synopsis

namespace Node

def sequenceOf (children : List Node) (repeating : Bool) : Node :=
  .sequence ⟨children.all optional, repeating⟩ children

/-- The choice between the candidates that are not nothing. It is optional if it is said to be,
if a candidate is, or if a candidate is nothing. -/
def choiceOf (candidates : List Node) (optional : Bool) : Node :=
  let alternatives := candidates.filter (!·.isEmpty)
  .choice ⟨optional || candidates.any (fun node => node.isEmpty || node.optional), false⟩
    alternatives

/-- A choice without a need to choose: no alternative is nothing, and a single one takes over
the marks of the choice. -/
def simplify : Node → Node
  | .choice _ [] => nothing
  | .choice occ [only] =>
    only.withOcc ⟨only.optional || occ.optional, only.repeating || occ.repeating⟩
  | node => node

end Node

end Synopsis
