/-
Synopsis.Proofs.Node.Commitment — what the commitments of a sequence are.

A commitment of several children fills the open slots up to one of them, leaves that
one as it is and has no place for those after it (`mem_commitments_iff`). Turning the
ambiguous sequences of a regular tree into choices changes neither its marks nor
whether it is positional (`sameMarks_commit`); so a slot is open in the tree just if it is
open in the result.
-/
import Synopsis.Node.Commitment
import Synopsis.Proofs.Usage.Shape

namespace Synopsis

namespace Node

/-! ## §1 Position -/

@[simp] theorem positional?_setOptional (optional : Bool) (node : Node) :
    (node.setOptional optional).positional? = node.positional? :=
  positional?_withOcc _ node

@[simp] theorem positional?_setRepeating (repeating : Bool) (node : Node) :
    (node.setRepeating repeating).positional? = node.positional? :=
  positional?_withOcc _ node

def IsDecided (node : Node) : Prop := node.positional? = some node.positional

theorem isDecided_of_eq_some {node : Node} {answer : Bool} (h : node.positional? = some answer) :
    node.IsDecided := by
  unfold IsDecided positional
  rw [h]
  cases answer <;> rfl

/-- Some node is positional if one of them is, all being decided. -/
theorem anyPositional?_eq {nodes : List Node} (h : ∀ node ∈ nodes, node.IsDecided) :
    anyPositional? nodes = some (nodes.any positional) := by
  induction nodes with
  | nil => rfl
  | cons node nodes ih =>
    have ih := ih fun other hother => h other (by simp [hother])
    have hnode : node.positional? = some node.positional := h node (by simp)
    rw [anyPositional?, hnode, List.any_cons]
    cases node.positional with
    | true => rfl
    | false => exact ih

theorem Regular.isDecided {node : Node} (h : node.Regular) : node.IsDecided := by
  induction h with
  | literal => rfl
  | parameter => rfl
  | flag => rfl
  | setting => rfl
  | sequence _ _ _ _ ih =>
    exact isDecided_of_eq_some (anyPositional?_eq ih)
  | choice _ _ _ _ ih =>
    exact isDecided_of_eq_some (anyPositional?_eq ih)
  | nothing => rfl

/-! ## §2 Commitments -/

/-- The child without the choice to leave it out, if it is an open slot. -/
def fill (child : Node) : Node := if child.isOpen then child.setOptional false else child

theorem isOpen_iff {node : Node} :
    node.isOpen = true ↔ node.optional = true ∧ node.positional = true := by
  simp [isOpen]

/-- A list is split at its first element or behind it. -/
theorem exists_split_cons_iff {α : Type} {a : α} {as : List α} {P : List α → α → List α → Prop} :
    (∃ front b back, a :: as = front ++ b :: back ∧ P front b back) ↔
      P [] a as ∨ ∃ front b back, as = front ++ b :: back ∧ P (a :: front) b back := by
  constructor
  · rintro ⟨_ | ⟨c, front⟩, b, back, heq, h⟩ <;> obtain ⟨rfl, rfl⟩ := List.cons.inj heq
    · exact .inl h
    · exact .inr ⟨front, b, back, rfl, h⟩
  · rintro (h | ⟨front, b, back, rfl, h⟩)
    · exact ⟨[], a, as, rfl, h⟩
    · exact ⟨a :: front, b, back, rfl, h⟩

/-- In a commitment the slots before one of the open slots are filled, and those after it are
gone. -/
theorem mem_commitments_iff {before children committed : List Node} :
    committed ∈ commitments before children ↔
      ∃ earlier child later, children = earlier ++ child :: later ∧ child.isOpen = true ∧
        committed = before ++ earlier.map fill ++ child :: later.filter (!·.isOpen) := by
  induction children generalizing before with
  | nil => simp [commitments]
  | cons child children ih =>
    rw [exists_split_cons_iff]
    by_cases hopen : child.isOpen = true
    · rw [commitments, if_pos hopen, List.mem_cons, ih]
      simp [hopen, fill]
    · rw [commitments, if_neg hopen, ih]
      simp [hopen, fill]

/-- If everything in a commitment is optional, so is every child: none of them was filled. -/
theorem all_optional_of_commitment {children committed : List Node}
    (h : committed ∈ commitments [] children) (hall : committed.all optional = true) :
    children.all optional = true := by
  obtain ⟨earlier, slot, later, rfl, hopen, rfl⟩ := mem_commitments_iff.mp h
  simp only [List.nil_append, List.all_append, List.all_map, List.all_cons, Bool.and_eq_true,
    List.all_eq_true, List.mem_filter] at hall ⊢
  obtain ⟨hearlier, hslot, hlater⟩ := hall
  refine ⟨fun child hchild => ?_, hslot, fun child hchild => ?_⟩
  · have hfilled := hearlier child hchild
    by_cases hopen : child.isOpen = true
    · exact (isOpen_iff.mp hopen).1
    · simpa [fill, hopen] using hfilled
  · by_cases hopen : child.isOpen = true
    · exact (isOpen_iff.mp hopen).1
    · exact hlater child ⟨hchild, by simp [hopen]⟩

/-! ## §3 Bundles -/

theorem optional_bundle (nodes : List Node) : (bundle nodes).optional = nodes.all optional := by
  unfold bundle
  split
  · simp
  · rfl

theorem positional?_bundle (nodes : List Node) :
    (bundle nodes).positional? = anyPositional? nodes := by
  unfold bundle
  split
  · rename_i node
    rw [anyPositional?]
    cases node.positional? with
    | none => rfl
    | some answer => cases answer <;> rfl
  · rfl

theorem isEmpty_bundle {nodes : List Node} (h : ∀ node ∈ nodes, node.isEmpty = false) :
    (bundle nodes).isEmpty = false := by
  unfold bundle
  split
  · exact h _ (by simp)
  · rfl

/-- The members of a commitment are as decided and as filled with something as the children. -/
theorem of_mem_commitment {children committed : List Node} {P : Node → Prop}
    (hfill : ∀ child, P child → P child.fill) (hchildren : ∀ child ∈ children, P child)
    (h : committed ∈ commitments [] children) : ∀ node ∈ committed, P node := by
  obtain ⟨earlier, slot, later, rfl, -, rfl⟩ := mem_commitments_iff.mp h
  intro node hnode
  simp only [List.nil_append, List.mem_append, List.mem_map, List.mem_cons, List.mem_filter] at hnode
  rcases hnode with ⟨child, hchild, rfl⟩ | rfl | ⟨hmem, -⟩
  · exact hfill child (hchildren child (by simp [hchild]))
  · exact hchildren node (by simp)
  · exact hchildren node (by simp [hmem])

theorem isDecided_fill {child : Node} (h : child.IsDecided) : child.fill.IsDecided := by
  unfold fill
  split
  · exact isDecided_of_eq_some ((positional?_setOptional _ child).trans h)
  · exact h

theorem isEmpty_fill {child : Node} (h : child.isEmpty = false) : child.fill.isEmpty = false := by
  unfold fill
  split
  · simpa [setOptional] using h
  · exact h

/-! ## §4 The marks of the result -/

theorem commitAll_eq_map (nodes : List Node) : commitAll nodes = nodes.map commit := by
  induction nodes with
  | nil => rfl
  | cons node nodes ih => rw [commitAll, ih, List.map_cons]

/-- Of an ambiguous sequence some open child is known. -/
theorem exists_isOpen_of_isAmbiguous {children : List Node} (h : isAmbiguous children = true) :
    ∃ child ∈ children, child.isOpen = true := by
  have hcount : 0 < children.countP isOpen := by
    have hlt : 1 < children.countP isOpen := by simpa [isAmbiguous] using h
    omega
  exact List.countP_pos_iff.mp hcount

/-- A choice between commitments keeps all of them, for none is nothing. -/
theorem commitmentChoice_eq {children : List Node}
    (hfilled : ∀ child ∈ children, child.isEmpty = false) (optional : Bool) :
    commitmentChoice children optional =
      .choice ⟨optional || (commitments [] children).any fun committed => committed.all Node.optional,
        false⟩ ((commitments [] children).map bundle) := by
  have hbundle : ∀ committed ∈ commitments [] children, (bundle committed).isEmpty = false :=
    fun committed h => isEmpty_bundle (of_mem_commitment (fun _ => isEmpty_fill) hfilled h)
  have hany : ((commitments [] children).map bundle).any Node.optional =
      (commitments [] children).any fun committed => committed.all Node.optional := by
    rw [List.any_map]
    exact any_congr_of_mem fun committed _ => optional_bundle committed
  rw [commitmentChoice, choiceOf_filled, hany]
  intro node hnode
  obtain ⟨committed, hcommitted, rfl⟩ := List.mem_map.mp hnode
  exact hbundle committed hcommitted

/-- The node has the marks of the other one, and is positional and nothing just if that one is. -/
structure SameMarks (node other : Node) : Prop where
  occ_eq : node.occ = other.occ
  positional?_eq : node.positional? = other.positional?
  isEmpty_eq : node.isEmpty = other.isEmpty

theorem SameMarks.refl (node : Node) : SameMarks node node := ⟨rfl, rfl, rfl⟩

theorem SameMarks.trans {a b c : Node} (hab : SameMarks a b) (hbc : SameMarks b c) : SameMarks a c :=
  ⟨hab.occ_eq.trans hbc.occ_eq, hab.positional?_eq.trans hbc.positional?_eq,
    hab.isEmpty_eq.trans hbc.isEmpty_eq⟩

theorem SameMarks.optional_eq {node other : Node} (h : SameMarks node other) :
    node.optional = other.optional := congrArg Occurrence.optional h.occ_eq

theorem SameMarks.repeating_eq {node other : Node} (h : SameMarks node other) :
    node.repeating = other.repeating := congrArg Occurrence.repeating h.occ_eq

theorem SameMarks.positional_eq {node other : Node} (h : SameMarks node other) :
    node.positional = other.positional := congrArg (· == some true) h.positional?_eq

/-- An ambiguous sequence and the choice between its commitments have the same marks. -/
theorem sameMarks_commitmentChoice {occ : Occurrence} {children : List Node}
    (hdecided : ∀ child ∈ children, child.IsDecided)
    (hfilled : ∀ child ∈ children, child.isEmpty = false)
    (hoptional : (∀ child ∈ children, child.optional = true) → occ.optional = true)
    (hambiguous : isAmbiguous children = true) :
    SameMarks ((commitmentChoice children occ.optional).setRepeating occ.repeating)
      (.sequence occ children) := by
  have hnone : (occ.optional ||
      (commitments [] children).any fun committed => committed.all Node.optional) = occ.optional := by
    cases hoccurs : occ.optional with
    | true => rfl
    | false =>
      rw [Bool.false_or, List.any_eq_false]
      intro committed hcommitted hall
      have hall := all_optional_of_commitment hcommitted hall
      rw [hoptional (List.all_eq_true.mp hall)] at hoccurs
      cases hoccurs
  rw [commitmentChoice_eq hfilled, hnone]
  refine ⟨rfl, ?_, rfl⟩
  rw [positional?_setRepeating]
  have hbundles : ∀ node ∈ (commitments [] children).map bundle, node.IsDecided := by
    intro node hnode
    obtain ⟨committed, hcommitted, rfl⟩ := List.mem_map.mp hnode
    exact isDecided_of_eq_some ((positional?_bundle committed).trans
      (anyPositional?_eq (of_mem_commitment (fun _ => isDecided_fill) hdecided hcommitted)))
  obtain ⟨slot, hslot, hopen⟩ := exists_isOpen_of_isAmbiguous hambiguous
  have hpositional := (isOpen_iff.mp hopen).2
  -- the commitment that leaves this slot open is positional, and so is the sequence
  obtain ⟨earlier, later, rfl⟩ := List.append_of_mem hslot
  let committed := earlier.map fill ++ slot :: later.filter (!·.isOpen)
  have hmem : committed ∈ commitments [] (earlier ++ slot :: later) :=
    mem_commitments_iff.mpr ⟨earlier, slot, later, rfl, hopen, rfl⟩
  have hcommitted : (bundle committed).positional = true := by
    unfold positional
    rw [positional?_bundle,
      anyPositional?_eq (of_mem_commitment (fun _ => isDecided_fill) hdecided hmem)]
    simp [committed, hpositional]
  rw [positional?, positional?, anyPositional?_eq hbundles, anyPositional?_eq hdecided]
  congr 1
  rw [List.any_eq_true.mpr ⟨_, List.mem_map_of_mem hmem, hcommitted⟩,
    List.any_eq_true.mpr ⟨slot, hslot, hpositional⟩]

section Members

variable {nodes : List Node}

/-- What holds of the nodes once their ambiguous sequences are choices. -/
theorem of_mem_commitAll {P : Node → Prop} (h : ∀ node ∈ nodes, P node.commit) :
    ∀ node ∈ commitAll nodes, P node := by
  rw [commitAll_eq_map]
  exact List.forall_mem_map.mpr h

theorem isDecided_of_mem_commitAll (hsame : ∀ node ∈ nodes, SameMarks node.commit node)
    (hregular : ∀ node ∈ nodes, node.Regular) : ∀ node ∈ commitAll nodes, node.IsDecided :=
  of_mem_commitAll fun node h =>
    isDecided_of_eq_some ((hsame node h).positional?_eq.trans (hregular node h).isDecided)

theorem isEmpty_of_mem_commitAll (hsame : ∀ node ∈ nodes, SameMarks node.commit node)
    (hfilled : ∀ node ∈ nodes, node.isEmpty = false) :
    ∀ node ∈ commitAll nodes, node.isEmpty = false :=
  of_mem_commitAll fun node h => (hsame node h).isEmpty_eq.trans (hfilled node h)

theorem optional_of_mem_commitAll (hsame : ∀ node ∈ nodes, SameMarks node.commit node)
    (hall : ∀ node ∈ commitAll nodes, node.optional = true) :
    ∀ node ∈ nodes, node.optional = true := by
  rw [commitAll_eq_map] at hall
  intro node h
  rw [← (hsame node h).optional_eq]
  exact hall _ (List.mem_map_of_mem h)

theorem anyPositional?_commitAll (hsame : ∀ node ∈ nodes, SameMarks node.commit node)
    (hregular : ∀ node ∈ nodes, node.Regular) :
    anyPositional? (commitAll nodes) = anyPositional? nodes := by
  rw [anyPositional?_eq (isDecided_of_mem_commitAll hsame hregular),
    anyPositional?_eq fun node h => (hregular node h).isDecided, commitAll_eq_map, List.any_map]
  congr 1
  exact any_congr_of_mem fun node h => (hsame node h).positional_eq

end Members

/-- Turning ambiguous sequences into choices leaves the marks of a regular tree alone. -/
theorem sameMarks_commit {node : Node} (h : node.Regular) : SameMarks node.commit node := by
  induction h with
  | literal => exact .refl _
  | parameter => exact .refl _
  | flag => exact .refl _
  | setting => exact .refl _
  | nothing => exact .refl _
  | @sequence occ children _ hregular hfilled hoptional ih =>
    have hsame : SameMarks (.sequence occ (commitAll children)) (.sequence occ children) := by
      refine ⟨rfl, ?_, rfl⟩
      rw [positional?, positional?, anyPositional?_commitAll ih hregular]
    rw [commit]
    split
    · rename_i hambiguous
      have hchoice := sameMarks_commitmentChoice (isDecided_of_mem_commitAll ih hregular)
        (isEmpty_of_mem_commitAll ih hfilled)
        (fun hall => hoptional (optional_of_mem_commitAll ih hall)) hambiguous
      exact hchoice.trans hsame
    · exact hsame
  | @choice occ alternatives _ hregular _ _ ih =>
    refine ⟨rfl, ?_, rfl⟩
    rw [commit, positional?, positional?, anyPositional?_commitAll ih hregular]

end Node

end Synopsis
