/-
Synopsis.Node.Render — a tree written as a usage.

A node is written as its body, and its marks around it: square brackets if it is
optional, the repetition marker after it if it repeats. A group of several
members gets parentheses where its neighbours would otherwise be drawn into it.
-/
import Synopsis.Node.Basic
import Synopsis.Usage.Alphabet

namespace Synopsis

namespace Node

/-- The node's body consists of several members next to each other. -/
def isGrouped : Node → Bool
  | .sequence _ children => 1 < children.length
  | .choice _ alternatives => 1 < alternatives.length
  | _ => false

/-- The marks that are written; nothing is written without any. -/
def shownOcc : Node → Occurrence
  | .empty _ => {}
  | node => node.occ

/-- A body with its marks. Inside another node, or under the repetition marker, several members
next to each other are held together by parentheses, where no square brackets do it. -/
def enclose (occ : Occurrence) (nested grouped : Bool) (body : Text) : Text :=
  if occ.repeating then
    let unit := if grouped then '(' :: body ++ [')'] else body
    (if occ.optional then '[' :: unit ++ [']'] else unit) ++ repeatMarker
  else if occ.optional then '[' :: body ++ [']']
  else if nested && grouped then '(' :: body ++ [')']
  else body

mutual

def body : Node → Text
  | .literal _ name => escapeLiteral name
  | .parameter _ name => '<' :: name ++ ['>']
  | .flag _ key => '-' :: '-' :: key
  | .setting _ key value =>
    let shown (occ : Occurrence) : Text := enclose occ true value.isGrouped value.body
    '-' :: '-' :: key ++
      if value.optional then
        "[=".toList ++ shown { value.shownOcc with optional := false } ++ [']']
      else '=' :: shown value.shownOcc
  | .sequence _ children => Text.spaced (members children)
  | .choice _ alternatives => Text.joinWith " | ".toList (members alternatives)
  | .empty _ => "()".toList
  | .hole _ => []

def members : List Node → List Text
  | [] => []
  | node :: nodes => enclose node.shownOcc true node.isGrouped node.body :: members nodes

end

/-- A node as it is written, inside another node or on its own. -/
def render (nested : Bool) (node : Node) : Text :=
  enclose node.shownOcc nested node.isGrouped node.body

def usage (node : Node) : Text := node.render false

/-- A node as it is written, if it has no hole. -/
def render? (nested : Bool) (node : Node) : Option Text :=
  if node.isComplete then some (node.render nested) else none

end Node

end Synopsis
