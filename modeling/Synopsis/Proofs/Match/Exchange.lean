/-
Synopsis.Proofs.Match.Exchange — parts of a usage that may be exchanged for others.

Two rows of alternatives are interchangeable if no line tells which of them is tried. An
element of a usage may then be exchanged for another one, whatever stands behind it in the
usage: the elements are the same to a sequence, and what they add to a choice is the same
to the choice (`SameElement`, `SameCandidates`).

That is shown along the grammar. What has been read of a usage is kept the same by each
rule (`SameRow.push`, `SameRow.repeatLast`, `SameCandidates.append`), so the whole trees
are the same to every line (`exists_builds_of_same`).
-/
import Mathlib.Data.List.Forall2
import Synopsis.Proofs.Match.Alternatives
import Synopsis.Proofs.Usage.Rows

namespace Synopsis

/-! ## §1 Positional nodes -/

namespace Node

theorem anyPositional?_append (nodes others : List Node) :
    anyPositional? (nodes ++ others) =
      match anyPositional? nodes with
      | some false => anyPositional? others
      | found => found := by
  induction nodes with
  | nil => rfl
  | cons node nodes ih =>
    rw [List.cons_append, anyPositional?, anyPositional?, ih]
    cases node.positional? with
    | none => rfl
    | some positional => cases positional <;> rfl

theorem anyPositional?_congr {nodes others : List Node}
    (h : nodes.map positional? = others.map positional?) :
    anyPositional? nodes = anyPositional? others := by
  induction nodes generalizing others with
  | nil =>
    rw [List.map_eq_nil_iff.mp h.symm]
  | cons node nodes ih =>
    obtain ⟨other, others, rfl, hnode, hnodes⟩ := List.map_eq_cons_iff.mp h.symm
    rw [anyPositional?, anyPositional?, hnode, ih hnodes.symm]

end Node

namespace Match

open Line (Parsed)
open Node (kept anyAbsent choiceOf)
open Usage (Builds Row rowAlternatives)

/-! ## §2 Interchangeable alternatives -/

/-- No line tells which of the two rows of alternatives is tried. -/
structure Interchangeable (nodes others : List Node) : Prop where
  positional?_eq : Node.anyPositional? nodes = Node.anyPositional? others
  firstOf_eq (line : Parsed) (token : Nat) (last : Bool) (memory : Memory) :
    firstOf line.words.length token last memory (nodes.map (slotOf line)) =
      firstOf line.words.length token last memory (others.map (slotOf line))

/-- The nodes are the same to every sequence, one by one. -/
def SameSlots (nodes others : List Node) : Prop :=
  ∀ line, nodes.map (slotOf line) = others.map (slotOf line)

section Alternatives

variable {nodes others nodes' others' : List Node}

theorem SameSlots.length_eq (h : SameSlots nodes others) : nodes.length = others.length := by
  simpa using congrArg List.length (h ⟨[], []⟩)

theorem SameSlots.map_eq {α : Type} {f : Node → α} {g : Slot → α}
    (hf : ∀ line node, f node = g (slotOf line node)) (h : SameSlots nodes others) :
    nodes.map f = others.map f := by
  have hmap (nodes : List Node) : nodes.map f = (nodes.map (slotOf ⟨[], []⟩)).map g := by
    rw [List.map_map]
    exact List.map_congr_left fun node _ => hf _ node
  rw [hmap, hmap, h]

theorem SameSlots.interchangeable (h : SameSlots nodes others) : Interchangeable nodes others where
  positional?_eq := Node.anyPositional?_congr (h.map_eq (g := Slot.positional?) fun _ _ => rfl)
  firstOf_eq line _ _ _ := by rw [h line]

/-- Rows of alternatives are tried one after the other. -/
theorem Interchangeable.append (h : Interchangeable nodes others)
    (h' : Interchangeable nodes' others') :
    Interchangeable (nodes ++ nodes') (others ++ others') where
  positional?_eq := by
    rw [Node.anyPositional?_append, Node.anyPositional?_append, h.positional?_eq, h'.positional?_eq]
  firstOf_eq line token last memory := by
    rw [List.map_append, List.map_append, firstOf_append (lawful_map_slotOf line _),
      firstOf_append (lawful_map_slotOf line _), h.firstOf_eq, h'.firstOf_eq]

/-- Choices between interchangeable alternatives are the same to a sequence. -/
theorem Interchangeable.slotOf_choice (h : Interchangeable nodes others) (line : Parsed)
    (occ : Occurrence) : slotOf line (.choice occ nodes) = slotOf line (.choice occ others) :=
  slotOf_eq rfl h.positional?_eq fun token last memory => by
    rw [attempt_choice, attempt_choice, h.firstOf_eq]

/-- Sequences of the same slots are the same to a sequence. -/
theorem SameSlots.slotOf_sequence (h : SameSlots nodes others) (line : Parsed) (occ : Occurrence) :
    slotOf line (.sequence occ nodes) = slotOf line (.sequence occ others) :=
  slotOf_eq rfl h.interchangeable.positional?_eq fun token last memory => by
    rw [attempt_sequence, attempt_sequence, h line]

end Alternatives

/-! ## §3 Candidates and elements that are the same -/

/-- A choice between the one candidates is the same as one between the others. Each of the
alternatives is the same, or there are several of them, and they are interchangeable. -/
structure SameCandidates (candidates others : List Node) : Prop where
  anyAbsent_eq : anyAbsent candidates = anyAbsent others
  interchangeable : Interchangeable (kept candidates) (kept others)
  slots_or_several : SameSlots (kept candidates) (kept others) ∨
    (2 ≤ (kept candidates).length ∧ 2 ≤ (kept others).length)

/-- The one element is the same as the other one in a sequence and in front of a bar. -/
structure SameElement (node other : Node) : Prop where
  slotOf_eq (line : Parsed) : slotOf line node = slotOf line other
  isEmpty_eq : node.isEmpty = other.isEmpty
  rowAlternatives : SameCandidates (rowAlternatives node) (rowAlternatives other)

section Same

variable {candidates others candidates' others' items items' : List Node} {node other : Node}

theorem SameCandidates.refl (candidates : List Node) : SameCandidates candidates candidates where
  anyAbsent_eq := rfl
  interchangeable := ⟨rfl, fun _ _ _ _ => rfl⟩
  slots_or_several := .inl fun _ => rfl

theorem SameElement.refl (node : Node) : SameElement node node :=
  ⟨fun _ => rfl, rfl, .refl _⟩

theorem SameCandidates.append (h : SameCandidates candidates others)
    (h' : SameCandidates candidates' others') :
    SameCandidates (candidates ++ candidates') (others ++ others') where
  anyAbsent_eq := by
    rw [Node.anyAbsent_append, Node.anyAbsent_append, h.anyAbsent_eq, h'.anyAbsent_eq]
  interchangeable := by
    rw [Node.kept_append, Node.kept_append]
    exact h.interchangeable.append h'.interchangeable
  slots_or_several := by
    rw [Node.kept_append, Node.kept_append]
    rcases h.slots_or_several with hslots | ⟨htwo, htwo'⟩
    · rcases h'.slots_or_several with hslots' | ⟨htwo, htwo'⟩
      · exact .inl fun line => by rw [List.map_append, List.map_append, hslots line, hslots' line]
      · exact .inr ⟨by rw [List.length_append]; omega, by rw [List.length_append]; omega⟩
    · exact .inr ⟨by rw [List.length_append]; omega, by rw [List.length_append]; omega⟩

/-- A choice between the same candidates is the same to every line, also once it is simplified. -/
theorem SameCandidates.slotOf_eq (h : SameCandidates candidates others) (line : Parsed) :
    slotOf line (choiceOf candidates false).simplify =
      slotOf line (choiceOf others false).simplify := by
  have hchoice : slotOf line (choiceOf candidates false) = slotOf line (choiceOf others false) := by
    rw [Node.choiceOf_eq, Node.choiceOf_eq, h.anyAbsent_eq]
    exact h.interchangeable.slotOf_choice line _
  by_cases hseveral : 2 ≤ (kept candidates).length ∧ 2 ≤ (kept others).length
  · rw [Node.choiceOf_eq, Node.choiceOf_eq] at hchoice ⊢
    rwa [Usage.simplify_choice hseveral.1, Usage.simplify_choice hseveral.2]
  · -- nothing, or one alternative that takes over the marks of the choice
    have hslots := h.slots_or_several.resolve_right hseveral
    have hlength := hslots.length_eq
    rw [Node.choiceOf_eq, Node.choiceOf_eq, h.anyAbsent_eq]
    match hkept : kept candidates with
    | [] =>
      rw [hkept] at hlength
      rw [List.length_eq_zero_iff.mp hlength.symm]
    | [only] =>
      rw [hkept] at hlength
      obtain ⟨only', hkept'⟩ := List.length_eq_one_iff.mp hlength.symm
      have hfilled : only.isEmpty = false :=
        Node.isEmpty_of_mem_kept (hkept ▸ List.mem_singleton_self only)
      have hfilled' : only'.isEmpty = false :=
        Node.isEmpty_of_mem_kept (hkept' ▸ List.mem_singleton_self only')
      have hsame : slotOf line only = slotOf line only' := by
        simpa [hkept, hkept'] using hslots line
      have hocc : only.occ = only'.occ := congrArg Slot.occ hsame
      simp only [hkept', Node.simplify, Node.optional, Node.repeating]
      rw [slotOf_withOcc hfilled, slotOf_withOcc hfilled', hsame, hocc]
    | _ :: _ :: _ => exact absurd ⟨by simp [hkept], by simp [← hlength, hkept]⟩ hseveral

/-- Elements that are the same in a sequence are the same as the last row of an expression. -/
theorem sameCandidates_single (hslots : ∀ line, slotOf line node = slotOf line other)
    (hempty : node.isEmpty = other.isEmpty) : SameCandidates [node] [other] := by
  have hocc : node.occ = other.occ := congrArg Slot.occ (hslots ⟨[], []⟩)
  have hkept : SameSlots (kept [node]) (kept [other]) := by
    intro line
    unfold kept
    rw [List.filter_singleton, List.filter_singleton, hempty]
    cases other.isEmpty with
    | true => rfl
    | false => exact congrArg (fun slot => [slot]) (hslots line)
  exact ⟨by simp [anyAbsent, hempty, Node.optional, hocc], hkept.interchangeable, .inl hkept⟩

/-- An element that is not spread out at a bar is the same if it is the same in a sequence. -/
theorem SameElement.of_slots (hslots : ∀ line, slotOf line node = slotOf line other)
    (hempty : node.isEmpty = other.isEmpty) (hrow : Usage.rowAlternatives node = [node])
    (hrow' : Usage.rowAlternatives other = [other]) : SameElement node other := by
  refine ⟨hslots, hempty, ?_⟩
  rw [hrow, hrow']
  exact sameCandidates_single hslots hempty

theorem setRepeating_of_isEmpty (h : node.isEmpty = true) : node.setRepeating true = node := by
  cases node with
  | empty => rfl
  | _ => cases h

theorem rowAlternatives_setRepeating (node : Node) :
    Usage.rowAlternatives (node.setRepeating true) = [node.setRepeating true] := by
  cases node <;> rfl

/-- The same elements are the same when they are repeated. -/
theorem SameElement.setRepeating (h : SameElement node other) :
    SameElement (node.setRepeating true) (other.setRepeating true) := by
  cases hempty : node.isEmpty with
  | true =>
    rw [setRepeating_of_isEmpty hempty, setRepeating_of_isEmpty (h.isEmpty_eq ▸ hempty)]
    exact h
  | false =>
    have hempty' := h.isEmpty_eq.symm.trans hempty
    refine .of_slots (fun line => ?_) (by simp [Node.setRepeating, h.isEmpty_eq])
      (rowAlternatives_setRepeating node) (rowAlternatives_setRepeating other)
    have hocc : node.occ = other.occ := congrArg Slot.occ (h.slotOf_eq line)
    rw [Node.setRepeating, Node.setRepeating, slotOf_withOcc hempty, slotOf_withOcc hempty',
      h.slotOf_eq, hocc]

theorem sameSlots_of_forall₂ (h : List.Forall₂ SameElement items items') :
    SameSlots items items' := by
  intro line
  induction h with
  | nil => rfl
  | cons hnode _ ih => rw [List.map_cons, List.map_cons, hnode.slotOf_eq, ih]

/-- Sequences of the same elements are the same. -/
theorem SameElement.sequenceOf (h : List.Forall₂ SameElement items items') :
    SameElement (Node.sequenceOf items false) (Node.sequenceOf items' false) := by
  have hslots := sameSlots_of_forall₂ h
  have hoptional : items.all Node.optional = items'.all Node.optional := by
    have hmap := hslots.map_eq (f := Node.optional) (g := fun slot => slot.occ.optional)
      fun _ _ => rfl
    simpa [List.all_map] using congrArg (List.all · id) hmap
  refine .of_slots (fun line => ?_) rfl rfl rfl
  rw [Node.sequenceOf, Node.sequenceOf, hoptional]
  exact hslots.slotOf_sequence line _

end Same

/-! ## §4 Usages with the same elements -/

/-- The same has been read of a row. -/
structure SameRow (row other : Row) : Prop where
  items : List.Forall₂ SameElement row.items other.items
  started_eq : row.started = other.started
  endsEmpty_eq : row.endsEmpty = other.endsEmpty

theorem forall₂_modify {α : Type} {R : α → α → Prop} {f : α → α} {as bs : List α}
    (hf : ∀ a b, R a b → R (f a) (f b)) (h : List.Forall₂ R as bs) (index : Nat) :
    List.Forall₂ R (as.modify index f) (bs.modify index f) := by
  induction h generalizing index with
  | nil => simp
  | @cons a b as bs hhead htail ih =>
    cases index with
    | zero => exact .cons (hf a b hhead) htail
    | succ index => exact .cons hhead (ih index)

section Rows

variable {row other : Row} {node node' : Node}

theorem SameRow.refl (row : Row) : SameRow row row :=
  ⟨List.forall₂_same.mpr fun item _ => .refl item, rfl, rfl⟩

theorem SameRow.push (h : SameRow row other) (hnode : SameElement node node') :
    SameRow (row.push node) (other.push node') := by
  unfold Row.push
  rw [hnode.isEmpty_eq]
  split
  · exact ⟨h.items, rfl, rfl⟩
  · exact ⟨List.rel_append h.items (.cons hnode .nil), rfl, rfl⟩

theorem SameRow.repeatLast (h : SameRow row other) : SameRow row.repeatLast other.repeatLast := by
  unfold Row.repeatLast
  rw [h.endsEmpty_eq]
  split
  · exact h
  · refine ⟨?_, h.started_eq, rfl⟩
    rw [h.items.length_eq]
    exact forall₂_modify (fun _ _ => SameElement.setRepeating) h.items _

/-- Rows of which the same has been read stand for the same. -/
theorem SameRow.sameElement (h : SameRow row other) : SameElement row.node other.node := by
  have hitems := h.items
  unfold Row.node
  cases hrow : row.items with
  | nil =>
    rw [hrow] at hitems
    rw [List.forall₂_nil_left_iff.mp hitems]
    exact .refl _
  | cons item items =>
    rw [hrow] at hitems
    obtain ⟨item', items', hitem, htail, hother⟩ := List.forall₂_cons_left_iff.mp hitems
    rw [hother]
    cases htail with
    | nil => exact hitem
    | cons hnext htail => exact .sequenceOf (.cons hitem (.cons hnext htail))

/-- **The same symbols behind the same are the same to every line.** The induction is on the grammar:
each rule does the same to what has been read before. -/
theorem exists_builds_of_same {done others : List Node} {symbols : List Usage.Symbol} {result : Node}
    (h : Builds done row symbols result) (hdone : SameCandidates done others)
    (hrow : SameRow row other) :
    ∃ result', Builds others other symbols result' ∧
      ∀ line, slotOf line result = slotOf line result' := by
  induction h generalizing others other with
  | finish done row =>
    have hlast := sameCandidates_single hrow.sameElement.slotOf_eq hrow.sameElement.isEmpty_eq
    exact ⟨_, .finish others other, (hdone.append hlast).slotOf_eq⟩
  | group hinner _ _ ih =>
    obtain ⟨result', hbuilds, hsame⟩ := ih hdone (hrow.push (.refl _))
    exact ⟨result', .group hinner hbuilds, hsame⟩
  | bar _ ih =>
    obtain ⟨result', hbuilds, hsame⟩ := ih (hdone.append hrow.sameElement.rowAlternatives) (.refl {})
    exact ⟨result', .bar hbuilds, hsame⟩
  | marker hstarted _ ih =>
    obtain ⟨result', hbuilds, hsame⟩ := ih hdone hrow.repeatLast
    exact ⟨result', .marker (hrow.started_eq ▸ hstarted) hbuilds, hsame⟩
  | flag hbare _ ih =>
    obtain ⟨result', hbuilds, hsame⟩ := ih hdone (hrow.push (.refl _))
    exact ⟨result', .flag hbare hbuilds, hsame⟩
  | setting optional hvalue _ ih =>
    obtain ⟨result', hbuilds, hsame⟩ := ih hdone (hrow.push (.refl _))
    exact ⟨result', .setting optional hvalue hbuilds, hsame⟩
  | settingGroup optional hinner _ _ ih =>
    obtain ⟨result', hbuilds, hsame⟩ := ih hdone (hrow.push (.refl _))
    exact ⟨result', .settingGroup optional hinner hbuilds, hsame⟩
  | leaf hleaf _ ih =>
    obtain ⟨result', hbuilds, hsame⟩ := ih hdone (hrow.push (.refl _))
    exact ⟨result', .leaf hleaf hbuilds, hsame⟩

end Rows

end Match

end Synopsis
