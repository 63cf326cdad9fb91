/-
Synopsis.Node.Equality — when two trees are the same.

Two trees are equal if they have the same kind, marks, names, values and
children all the way down. `same` decides it, and `same_iff_eq` says so.
-/
import Synopsis.Node.Basic

namespace Synopsis

namespace Node

mutual

/-- Same kind, marks and names, and the same below. -/
def same : Node → Node → Bool
  | .literal occ name, .literal occ' name' => occ = occ' && name = name'
  | .parameter occ name, .parameter occ' name' => occ = occ' && name = name'
  | .flag occ key, .flag occ' key' => occ = occ' && key = key'
  | .setting occ key value, .setting occ' key' value' =>
    occ = occ' && key = key' && same value value'
  | .sequence occ children, .sequence occ' children' => occ = occ' && sameAll children children'
  | .choice occ alternatives, .choice occ' alternatives' =>
    occ = occ' && sameAll alternatives alternatives'
  | .empty occ, .empty occ' => occ = occ'
  | .hole occ, .hole occ' => occ = occ'
  | _, _ => false

def sameAll : List Node → List Node → Bool
  | [], [] => true
  | node :: nodes, node' :: nodes' => same node node' && sameAll nodes nodes'
  | _, _ => false

end

mutual

theorem same_iff_eq : ∀ a b : Node, same a b = true ↔ a = b
  | .setting _ _ value, b => by cases b <;> simp [same, same_iff_eq value, and_assoc]
  | .sequence _ children, b => by cases b <;> simp [same, sameAll_iff_eq children]
  | .choice _ alternatives, b => by cases b <;> simp [same, sameAll_iff_eq alternatives]
  | .literal _ _, b => by cases b <;> simp [same]
  | .parameter _ _, b => by cases b <;> simp [same]
  | .flag _ _, b => by cases b <;> simp [same]
  | .empty _, b => by cases b <;> simp [same]
  | .hole _, b => by cases b <;> simp [same]

theorem sameAll_iff_eq : ∀ as bs : List Node, sameAll as bs = true ↔ as = bs
  | [], bs => by cases bs <;> simp [sameAll]
  | a :: as, bs => by cases bs <;> simp [sameAll, same_iff_eq a, sameAll_iff_eq as]

end

instance : DecidableEq Node := fun a b => decidable_of_iff _ (same_iff_eq a b)

end Node

end Synopsis
