/-
Synopsis.Proofs.Node.Completeness — trees without holes.

A tree is complete if there is no hole in it, and then it is decided which of its nodes are
positional (`isDecided_of_isComplete`). Every compiled tree is complete, and stays so when
its ambiguous sequences are turned into choices (`isComplete_of_compile`).
-/
import Synopsis.Proofs.Node.Commitment
import Synopsis.Proofs.Node.Induction

namespace Synopsis

namespace Node

theorem areComplete_iff {nodes : List Node} :
    areComplete nodes = true ↔ ∀ node ∈ nodes, node.isComplete = true := by
  induction nodes with
  | nil => simp [areComplete]
  | cons node nodes ih => simp [areComplete, ih]

/-- It is known of every complete tree whether it is positional. -/
theorem isDecided_of_isComplete {node : Node} (h : node.isComplete = true) : node.IsDecided := by
  induction node using Node.inductionOn with
  | sequence occ children ih =>
    have hchildren := areComplete_iff.mp h
    exact isDecided_of_eq_some (anyPositional?_eq fun child hchild =>
      ih child hchild (hchildren child hchild))
  | choice occ alternatives ih =>
    have halternatives := areComplete_iff.mp h
    exact isDecided_of_eq_some (anyPositional?_eq fun alternative hmem =>
      ih alternative hmem (halternatives alternative hmem))
  | hole occ => cases h
  | _ => rfl

@[simp] theorem isComplete_withOcc (occ : Occurrence) (node : Node) :
    (node.withOcc occ).isComplete = node.isComplete := by
  cases node <;> rfl

theorem isComplete_fill {child : Node} (h : child.isComplete = true) :
    child.fill.isComplete = true := by
  unfold fill
  split
  · simpa [setOptional] using h
  · exact h

theorem isComplete_bundle {nodes : List Node} (h : ∀ node ∈ nodes, node.isComplete = true) :
    (bundle nodes).isComplete = true := by
  unfold bundle
  split
  · exact h _ (by simp)
  · exact areComplete_iff.mpr h

theorem isComplete_commitmentChoice {children : List Node}
    (h : ∀ child ∈ children, child.isComplete = true) (optional : Bool) :
    (commitmentChoice children optional).isComplete = true := by
  refine areComplete_iff.mpr ?_
  intro node hnode
  obtain ⟨committed, hcommitted, rfl⟩ := List.mem_map.mp (List.mem_filter.mp hnode).1
  exact isComplete_bundle (of_mem_commitment (fun _ => isComplete_fill) h hcommitted)

/-- Turning ambiguous sequences into choices leaves a tree complete. -/
theorem isComplete_commit {node : Node} (h : node.isComplete = true) :
    node.commit.isComplete = true := by
  induction node using Node.inductionOn with
  | sequence occ children ih =>
    have hchildren := of_mem_commitAll (P := fun node => node.isComplete = true)
      fun child hchild => ih child hchild (areComplete_iff.mp h child hchild)
    rw [commit]
    split
    · simpa [setRepeating] using isComplete_commitmentChoice hchildren occ.optional
    · exact areComplete_iff.mpr hchildren
  | choice occ alternatives ih =>
    have halternatives := of_mem_commitAll (P := fun node => node.isComplete = true)
      fun alternative hmem => ih alternative hmem (areComplete_iff.mp h alternative hmem)
    exact areComplete_iff.mpr halternatives
  | _ => exact h

theorem Regular.isComplete {node : Node} (h : node.Regular) : node.isComplete = true := by
  induction h with
  | setting _ _ ih => exact ih
  | sequence _ _ _ _ ih => exact areComplete_iff.mpr ih
  | choice _ _ _ _ ih => exact areComplete_iff.mpr ih
  | _ => rfl

end Node

/-- Every compiled tree is complete. -/
theorem Usage.isComplete_of_compile {usage : Text} {committing : Bool} {tree : Node}
    (h : compile usage committing = .ok tree) : tree.isComplete = true := by
  cases committing with
  | false => exact (regular_of_parse (parse_of_compile h)).isComplete
  | true =>
    obtain ⟨written, hparse, rfl⟩ := exists_parse_of_compile h
    exact Node.isComplete_commit (regular_of_parse hparse).isComplete

end Synopsis
