/-
Synopsis.Proofs.Node.Induction — induction on trees.

A tree is nested in the lists of its members, so what is proved about it by
induction may be taken for granted of each member of a group and of the value of a
setting.
-/
import Synopsis.Node.Basic

namespace Synopsis

namespace Node

/-- What a group inherits from its members, and a setting from its value, holds of every tree. -/
@[elab_as_elim]
theorem inductionOn {motive : Node → Prop}
    (literal : ∀ occ name, motive (.literal occ name))
    (parameter : ∀ occ name, motive (.parameter occ name))
    (flag : ∀ occ key, motive (.flag occ key))
    (setting : ∀ occ key value, motive value → motive (.setting occ key value))
    (sequence : ∀ occ children, (∀ child ∈ children, motive child) →
      motive (.sequence occ children))
    (choice : ∀ occ alternatives, (∀ alternative ∈ alternatives, motive alternative) →
      motive (.choice occ alternatives))
    (empty : ∀ occ, motive (.empty occ)) (hole : ∀ occ, motive (.hole occ)) :
    ∀ node, motive node
  | .literal occ name => literal occ name
  | .parameter occ name => parameter occ name
  | .flag occ key => flag occ key
  | .setting occ key value => setting occ key value
      (inductionOn literal parameter flag setting sequence choice empty hole value)
  | .sequence occ children => sequence occ children fun child _ =>
      inductionOn literal parameter flag setting sequence choice empty hole child
  | .choice occ alternatives => choice occ alternatives fun alternative _ =>
      inductionOn literal parameter flag setting sequence choice empty hole alternative
  | .empty occ => empty occ
  | .hole occ => hole occ

end Node

end Synopsis
