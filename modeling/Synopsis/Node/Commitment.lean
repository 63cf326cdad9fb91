/-
Synopsis.Node.Commitment — sequences with one open slot at a time.

Where a sequence has several open slots, the words given may be shared out among
them in more than one way. `commit` turns such a sequence into a choice: each
alternative fills the first few open slots, leaves one open and has no place for
the others, so that the slots can only be filled from the left.

    [a] [b] [c]  becomes  [a] | a [b] | a b [c]
     a  [b] [c]  becomes  a [b] | a b [c]
    a [b] [c] d  becomes  a [b] d | a b [c] d
-/
import Synopsis.Node.Group

namespace Synopsis

namespace Node

/-- For each open slot of the children, those of them that are left when the open slots before
it are to be filled and those after it are gone. `before` holds what comes first in each. -/
def commitments (before : List Node) : List Node → List (List Node)
  | [] => []
  | child :: children =>
    if child.isOpen then
      (before ++ child :: children.filter (!·.isOpen))
        :: commitments (before ++ [child.setOptional false]) children
    else commitments (before ++ [child]) children

/-- A single node stands for itself, several make a sequence. -/
def bundle : List Node → Node
  | [node] => node
  | nodes => sequenceOf nodes false

def isAmbiguous (children : List Node) : Bool := 1 < children.countP isOpen

def commitmentChoice (children : List Node) (optional : Bool) : Node :=
  choiceOf ((commitments [] children).map bundle) optional

mutual

/-- The tree with every ambiguous sequence turned into a choice, the innermost first. Values of
flags are left as they are. -/
def commit : Node → Node
  | .sequence occ children =>
    let children := commitAll children
    if isAmbiguous children then
      (commitmentChoice children occ.optional).setRepeating occ.repeating
    else .sequence occ children
  | .choice occ alternatives => .choice occ (commitAll alternatives)
  | node => node

def commitAll : List Node → List Node
  | [] => []
  | node :: nodes => node.commit :: commitAll nodes

end

mutual

/-- The sequences that `commit` turns into a choice, with that choice before it is marked as
repeating, in the order of their ends. -/
def committed : Node → List (Node × Node)
  | .sequence occ children =>
    committedOfAll children ++
      if isAmbiguous (commitAll children) then
        [(.sequence occ children, commitmentChoice (commitAll children) occ.optional)]
      else []
  | .choice _ alternatives => committedOfAll alternatives
  | _ => []

def committedOfAll : List Node → List (Node × Node)
  | [] => []
  | node :: nodes => node.committed ++ committedOfAll nodes

end

mutual

/-- It is settled of every optional child of the sequences that `commit` reaches whether the
child is positional. -/
def isSettled : Node → Bool
  | .sequence _ children =>
    areSettled children &&
      (commitAll children).all fun child => !child.optional || child.positional?.isSome
  | .choice _ alternatives => areSettled alternatives
  | _ => true

def areSettled : List Node → Bool
  | [] => true
  | node :: nodes => node.isSettled && areSettled nodes

end

/-- The same as `commit`, if it is settled which slots are open. -/
def commit? (node : Node) : Option Node := if node.isSettled then some node.commit else none

end Node

end Synopsis
