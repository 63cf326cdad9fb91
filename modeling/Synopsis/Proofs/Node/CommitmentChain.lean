/-
Synopsis.Proofs.Node.CommitmentChain — the commitments of a sequence in closed form.

An ambiguous sequence becomes a choice with one alternative for each of its open slots.
`commitmentAt` says of each slot what is left of the children: those before it are filled, and
of those behind it the open ones are gone (`commitments_eq_map`).

The same alternatives can be made one from another. `chain` goes along the open slots, and
what it puts before a slot is a slice of the alternative that it made last. That this is a
sequence, that it is long enough and that it has the filled children in their places is
what `children?_bundle_commitmentAt` says; so the chain does not break (`chain_eq`).
-/
import Mathlib.Data.List.Basic
import Synopsis.Proofs.Node.Unambiguous
import Synopsis.Proofs.Node.Completeness

namespace Synopsis

namespace Node

/-! ## §1 Open slots and what is committed to them -/

/-- The indices of the open slots, in order. -/
def openSlots (children : List Node) : List Nat :=
  (List.range children.length).filter fun index => children[index]?.any isOpen

/-- What is left of the children when one of the slots is left open: the open slots before it are
filled and those behind it are gone. -/
def commitmentAt (children : List Node) (slot : Nat) : List Node :=
  (children.take slot).map fill ++
    (children[slot]?.toList ++ (children.drop (slot + 1)).filter (!·.isOpen))

section Slots

variable {children : List Node} {slot : Nat}

theorem mem_openSlots_iff :
    slot ∈ openSlots children ↔ ∃ child, children[slot]? = some child ∧ child.isOpen = true := by
  simp only [openSlots, List.mem_filter, List.mem_range, Option.any_eq_true]
  constructor
  · exact And.right
  · rintro ⟨child, hget, hopen⟩
    exact ⟨(List.getElem?_eq_some_iff.mp hget).1, child, hget, hopen⟩

theorem openSlots_cons (child : Node) (children : List Node) :
    openSlots (child :: children) =
      (if child.isOpen then [0] else []) ++ (openSlots children).map (· + 1) := by
  have hrest : ((List.range children.length).map Nat.succ).filter
      (fun index => (child :: children)[index]?.any isOpen) = (openSlots children).map (· + 1) := by
    rw [List.filter_map]
    rfl
  rw [openSlots, List.length_cons, List.range_succ_eq_map, List.filter_cons, hrest]
  cases hopen : child.isOpen <;> simp [hopen]

theorem pairwise_openSlots (children : List Node) : (openSlots children).Pairwise (· < ·) :=
  List.pairwise_lt_range.filter _

/-- As many slots are open as there are open children. -/
theorem length_openSlots (children : List Node) :
    (openSlots children).length = children.countP isOpen := by
  induction children with
  | nil => rfl
  | cons child children ih =>
    rw [openSlots_cons, List.length_append, List.length_map, ih, List.countP_cons]
    cases child.isOpen <;> simp [Nat.add_comm]

theorem commitmentAt_succ (child : Node) (children : List Node) (slot : Nat) :
    commitmentAt (child :: children) (slot + 1) = child.fill :: commitmentAt children slot := by
  simp [commitmentAt]

/-- There is one commitment for each open slot. -/
theorem commitments_eq_map (before children : List Node) :
    commitments before children =
      (openSlots children).map fun slot => before ++ commitmentAt children slot := by
  induction children generalizing before with
  | nil => rfl
  | cons child children ih =>
    have hrest (filled : Node) (hfilled : child.fill = filled) :
        commitments (before ++ [filled]) children =
          ((openSlots children).map (· + 1)).map fun slot =>
            before ++ commitmentAt (child :: children) slot := by
      rw [ih, List.map_map]
      refine List.map_congr_left ?_
      intro slot _
      simp [commitmentAt_succ, hfilled]
    rw [commitments, openSlots_cons]
    cases hopen : child.isOpen with
    | true =>
      rw [if_pos rfl, if_pos rfl, hrest _ (by simp [fill, hopen])]
      simp [commitmentAt]
    | false =>
      rw [if_neg (by simp), if_neg (by simp), hrest _ (by simp [fill, hopen])]
      rfl

/-- A commitment has all children before its slot, and the slot. -/
theorem lt_length_commitmentAt (h : slot < children.length) :
    slot < (commitmentAt children slot).length := by
  simp [commitmentAt, List.getElem?_eq_getElem h]
  omega

theorem take_commitmentAt (h : slot < children.length) :
    (commitmentAt children slot).take slot = (children.take slot).map fill := by
  rw [commitmentAt, List.take_append_of_le_length (by simp; omega)]
  simp [List.take_take]

/-- The commitments to two open slots between which there is none agree before the first of them,
and the second has what stands between them as it is. -/
theorem commitmentAt_of_next {next : Nat} {child : Node} (hget : children[slot]? = some child)
    (hopen : child.isOpen = true) (hlt : slot < next)
    (hbetween : ∀ index, slot < index → index < next → index ∉ openSlots children) :
    commitmentAt children next =
      (children.take slot).map fill ++ child.setOptional false ::
        ((children.take (next + 1)).drop (slot + 1) ++
          (children.drop (next + 1)).filter (!·.isOpen)) := by
  have hmiddle : ((children.take next).drop (slot + 1)).map fill =
      (children.take next).drop (slot + 1) := by
    refine (List.map_congr_left fun other hmem => ?_).trans (List.map_id _)
    obtain ⟨index, hindex⟩ := List.mem_iff_getElem?.mp hmem
    rw [List.getElem?_drop, List.getElem?_take] at hindex
    split at hindex
    · rename_i hnext
      have hclosed : ¬ other.isOpen = true := fun h =>
        hbetween _ (by omega) hnext (mem_openSlots_iff.mpr ⟨other, hindex, h⟩)
      simp [fill, hclosed]
    · cases hindex
  have hfront : children.take next =
      children.take slot ++ child :: (children.take next).drop (slot + 1) := by
    have hsplit := List.take_append_drop slot (children.take next)
    rw [List.take_take, Nat.min_eq_left (Nat.le_of_lt hlt)] at hsplit
    have hslot : (children.take next)[slot]? = some child := by
      rw [List.getElem?_take_of_lt hlt, hget]
    obtain ⟨hbound, heq⟩ := List.getElem?_eq_some_iff.mp hslot
    rw [List.drop_eq_getElem_cons hbound, heq] at hsplit
    exact hsplit.symm
  have hback : (children.take (next + 1)).drop (slot + 1) =
      (children.take next).drop (slot + 1) ++ children[next]?.toList := by
    rw [List.take_add_one, List.drop_append]
    by_cases hnext : next < children.length
    · rw [List.length_take, show slot + 1 - min next children.length = 0 by omega, List.drop_zero]
    · simp [List.getElem?_eq_none (Nat.le_of_not_lt hnext)]
  rw [commitmentAt, hfront, hback]
  simp [fill, hopen, hmiddle]

end Slots

/-! ## §2 Alternatives -/

def children? : Node → Option (List Node)
  | .sequence _ children => some children
  | _ => none

section Alternatives

variable {children : List Node} {slot : Nat}

theorem bundle_of_lt {nodes : List Node} (h : 1 < nodes.length) :
    bundle nodes = sequenceOf nodes false := by
  match nodes with
  | _ :: _ :: _ => rfl

/-- The alternative for a slot that is not the first child is a sequence, it is long enough to reach
the slot, and it begins with the filled children. -/
theorem children?_bundle_commitmentAt (hslot : slot < children.length) (hpos : 0 < slot) :
    ∃ members, (bundle (commitmentAt children slot)).children? = some members ∧
      slot < members.length ∧ members.take slot = (children.take slot).map fill := by
  have hlength := lt_length_commitmentAt hslot
  refine ⟨commitmentAt children slot, ?_, hlength, take_commitmentAt hslot⟩
  rw [bundle_of_lt (by omega)]
  rfl

/-- No alternative is nothing: it has its open slot. -/
theorem isEmpty_bundle_commitmentAt (h : slot ∈ openSlots children) :
    (bundle (commitmentAt children slot)).isEmpty = false := by
  obtain ⟨child, hget, hopen⟩ := mem_openSlots_iff.mp h
  have hmem : child ∈ commitmentAt children slot := by simp [commitmentAt, hget]
  unfold bundle
  split
  · rename_i only heq
    rw [heq] at hmem
    obtain rfl := List.mem_singleton.mp hmem
    cases child <;> first | rfl | cases (isOpen_iff.mp hopen).2
  · rfl

/-- An ambiguous sequence becomes the choice between what is committed to each of its open slots. -/
theorem commitmentChoice_eq_map (children : List Node) (optional : Bool) :
    commitmentChoice children optional =
      let alternatives := (openSlots children).map fun slot => bundle (commitmentAt children slot)
      .choice ⟨optional || alternatives.any Node.optional, false⟩ alternatives := by
  have hfilled : ∀ node ∈ (openSlots children).map (fun slot => bundle (commitmentAt children slot)),
      node.isEmpty = false :=
    List.forall_mem_map.mpr fun slot => isEmpty_bundle_commitmentAt
  rw [commitmentChoice, commitments_eq_map, List.map_map]
  exact choiceOf_filled hfilled optional

end Alternatives

/-! ## §3 Alternatives that are made one from another -/

/-- The alternative for the first open slot. Where a leading slot has one child behind it, that is
the slot alone. -/
def firstLink (children : List Node) (slot : Nat) : Option Node :=
  if 0 < slot ∨ slot + 2 < children.length then
    some (bundle (children.take (slot + 1) ++ (children.drop (slot + 1)).filter (!·.isOpen)))
  else children.head?

/-- What the alternative made last has before its slot. Nothing is read back for a leading slot. -/
def readBack (previous : Node) (slot : Nat) : Option (List Node) :=
  if slot = 0 then some [] else previous.children?.map (·.take slot)

/-- The alternative for the open slot `next`, made from the one for the open slot before it. -/
def nextLink (children : List Node) (previous : Node) (slot next : Nat) : Option Node := do
  let front ← readBack previous slot
  let child ← children[slot]?
  return sequenceOf
    (front ++ child.setOptional false :: ((children.take (next + 1)).drop (slot + 1) ++
      (children.drop (next + 1)).filter (!·.isOpen))) false

def links (children : List Node) (previous : Node) (slot : Nat) : List Nat → Option (List Node)
  | [] => some []
  | next :: slots => do
    let link ← nextLink children previous slot next
    let others ← links children link next slots
    return link :: others

/-- The alternatives for all open slots. -/
def chain (children : List Node) : Option (List Node) :=
  match openSlots children with
  | [] => some []
  | slot :: slots => do
    let first ← firstLink children slot
    let others ← links children first slot slots
    return first :: others

section Chain

variable {children : List Node} {slot : Nat}

/-- The first open slot has no open slot before it. -/
theorem firstLink_eq {slots : List Nat} (h : openSlots children = slot :: slots)
    (hslots : slots ≠ []) :
    firstLink children slot = some (bundle (commitmentAt children slot)) := by
  have hsorted := h ▸ pairwise_openSlots children
  have hfront : (children.take slot).map fill = children.take slot := by
    refine (List.map_congr_left fun other hmem => ?_).trans (List.map_id _)
    obtain ⟨index, hindex⟩ := List.mem_iff_getElem?.mp hmem
    rw [List.getElem?_take] at hindex
    split at hindex
    · rename_i hlt
      have hclosed : ¬ other.isOpen = true := by
        intro hopen
        have hmem := mem_openSlots_iff.mpr ⟨other, hindex, hopen⟩
        rw [h] at hmem
        rcases List.mem_cons.mp hmem with rfl | hmem
        · exact Nat.lt_irrefl _ hlt
        · exact Nat.lt_asymm hlt (List.rel_of_pairwise_cons hsorted hmem)
      simp [fill, hclosed]
    · cases hindex
  have hcommitment : commitmentAt children slot =
      children.take (slot + 1) ++ (children.drop (slot + 1)).filter (!·.isOpen) := by
    rw [commitmentAt, hfront, List.take_add_one, List.append_assoc]
  unfold firstLink
  split
  · rw [hcommitment]
  · -- two children, both of them open
    rename_i hshort
    obtain ⟨next, slots, rfl⟩ := List.exists_cons_of_ne_nil hslots
    obtain ⟨other, hother, hopen⟩ :=
      mem_openSlots_iff.mp (h ▸ by simp : next ∈ openSlots children)
    have hlt := List.rel_of_pairwise_cons hsorted (List.mem_cons_self (a := next) (l := slots))
    obtain rfl : slot = 0 := by omega
    have hnext := (List.getElem?_eq_some_iff.mp hother).1
    obtain rfl : next = 1 := by omega
    have hlength : children.length = 2 := by omega
    obtain ⟨first, second, rfl⟩ := List.length_eq_two.mp hlength
    obtain rfl : second = other := by simpa using hother
    simp [commitmentAt, hopen, bundle]

/-- What the chain puts before the open slot is there in the alternative made last: the children
before that slot, filled. -/
theorem nextLink_eq {next : Nat} (hslot : slot ∈ openSlots children)
    (hnext : next ∈ openSlots children) (hlt : slot < next)
    (hbetween : ∀ index, slot < index → index < next → index ∉ openSlots children) :
    nextLink children (bundle (commitmentAt children slot)) slot next =
      some (bundle (commitmentAt children next)) := by
  obtain ⟨child, hget, hopen⟩ := mem_openSlots_iff.mp hslot
  obtain ⟨_, hother, -⟩ := mem_openSlots_iff.mp hnext
  have hbound := (List.getElem?_eq_some_iff.mp hother).1
  have hfront : readBack (bundle (commitmentAt children slot)) slot =
      some ((children.take slot).map fill) := by
    unfold readBack
    split
    · rename_i hzero
      rw [hzero]
      rfl
    · obtain ⟨members, hmembers, -, htake⟩ :=
        children?_bundle_commitmentAt (Nat.lt_trans hlt hbound) (by omega)
      rw [hmembers, Option.map_some, htake]
  have hlength := lt_length_commitmentAt hbound
  rw [bundle_of_lt (by omega : 1 < (commitmentAt children next).length),
    commitmentAt_of_next hget hopen hlt hbetween]
  unfold nextLink
  rw [hfront, hget]
  rfl

/-- The chain goes on from any of the open slots: `done` holds those before it. -/
theorem links_eq (done : List Nat) {slots : List Nat}
    (h : openSlots children = done ++ slot :: slots) :
    links children (bundle (commitmentAt children slot)) slot slots =
      some (slots.map fun later => bundle (commitmentAt children later)) := by
  induction slots generalizing done slot with
  | nil => rfl
  | cons next slots ih =>
    have hsorted := h ▸ pairwise_openSlots children
    obtain ⟨-, hrest, hdone⟩ := List.pairwise_append.mp hsorted
    have hlt : slot < next := List.rel_of_pairwise_cons hrest (by simp)
    have hbetween : ∀ index, slot < index → index < next → index ∉ openSlots children := by
      intro index hslot hnext hmem
      rw [h, List.mem_append, List.mem_cons, List.mem_cons] at hmem
      rcases hmem with hmem | rfl | rfl | hmem
      · exact Nat.lt_asymm hslot (hdone index hmem slot (by simp))
      · exact Nat.lt_irrefl _ hslot
      · exact Nat.lt_irrefl _ hnext
      · exact Nat.lt_asymm hnext (List.rel_of_pairwise_cons hrest.of_cons hmem)
    have hlink := nextLink_eq (h ▸ by simp : slot ∈ openSlots children)
      (h ▸ by simp : next ∈ openSlots children) hlt hbetween
    have hothers := @ih next (done ++ [slot]) (by rw [h, List.append_assoc]; rfl)
    simp only [links, hlink, hothers, Option.bind_eq_bind, Option.bind_some, List.map_cons,
      Option.pure_def]

/-- The chain of a sequence with several open slots has what is committed to each of them. -/
theorem chain_eq (h : 2 ≤ (openSlots children).length) :
    chain children =
      some ((openSlots children).map fun slot => bundle (commitmentAt children slot)) := by
  unfold chain
  split
  · rename_i hnone
    rw [hnone] at h
    cases h
  · rename_i slot slots hslots
    have hrest : slots ≠ [] := by
      rintro rfl
      rw [hslots] at h
      simp at h
    have hothers := links_eq [] hslots
    simp only [firstLink_eq hslots hrest, hothers, hslots, Option.bind_eq_bind, Option.bind_some,
      List.map_cons, Option.pure_def]

end Chain

/-! ## §4 The commitment of a sequence -/

/-- A sequence is ambiguous if it has at least two open slots. -/
theorem isAmbiguous_iff {children : List Node} :
    isAmbiguous children = true ↔ 2 ≤ (openSlots children).length := by
  simp [isAmbiguous, length_openSlots, Nat.succ_le_iff]

/-- In a tree without holes it is settled which slots are open. -/
theorem isSettled_of_isComplete {node : Node} (h : node.isComplete = true) :
    node.isSettled = true := by
  induction node using Node.inductionOn with
  | sequence occ children ih =>
    have hchildren := areComplete_iff.mp h
    refine isSettled_sequence (fun child hchild => ih child hchild (hchildren child hchild)) ?_
    exact of_mem_commitAll fun child hchild =>
      isDecided_of_isComplete (isComplete_commit (hchildren child hchild))
  | choice occ alternatives ih =>
    have halternatives := areComplete_iff.mp h
    exact areSettled_iff.mpr fun node hnode => ih node hnode (halternatives node hnode)
  | _ => rfl

/-- **The commitment of a sequence in closed form.** Let a sequence be given of which it is settled
which slots are open, as it is in every tree without holes, and let at least two of its committed
children be open. The sequence becomes a choice that repeats if the sequence does; it has one
alternative for each open slot, in their order: the children with the open ones before that slot
filled and the open ones behind it gone, and where only the slot is left, the slot itself. The
alternatives are the ones that are made one from another. What is read back from the alternative
for a slot, unless that slot is the first child, is a sequence; it is long enough to reach the slot
and has all the children before it, filled and in their places. -/
theorem commit?_sequence_of_openSlots {occ : Occurrence} {children : List Node}
    (hsettled : (Node.sequence occ children).isSettled = true)
    (hseveral : 2 ≤ (openSlots (commitAll children)).length) :
    let members := commitAll children
    let alternatives := (openSlots members).map fun slot => bundle (commitmentAt members slot)
    (Node.sequence occ children).commit? =
        some (.choice ⟨occ.optional || alternatives.any Node.optional, occ.repeating⟩ alternatives) ∧
      chain members = some alternatives ∧
      ∀ slot ∈ openSlots members, 0 < slot →
        ∃ earlier, (bundle (commitmentAt members slot)).children? = some earlier ∧
          slot < earlier.length ∧ earlier.take slot = (members.take slot).map fill := by
  intro members alternatives
  refine ⟨?_, chain_eq hseveral, fun slot hslot hpos => ?_⟩
  · rw [commit?, if_pos hsettled, commit, if_pos (isAmbiguous_iff.mpr hseveral),
      commitmentChoice_eq_map]
    rfl
  · obtain ⟨_, hget, -⟩ := mem_openSlots_iff.mp hslot
    exact children?_bundle_commitmentAt (List.getElem?_eq_some_iff.mp hget).1 hpos

/-- The members of `[a] x [--v] [b] --w [c]`: three open slots, none of them beside another, and
what is required or a flag stands between them. -/
theorem commit?_sequence_of_three_slots :
    let slot (name : String) : Node := .literal ⟨true, false⟩ name.toList
    let rest : List Node := [.literal {} "x".toList, .flag ⟨true, false⟩ "v".toList]
    let children := slot "a" :: rest ++ [slot "b", .flag {} "w".toList, slot "c"]
    (Node.sequence {} children).isSettled = true ∧ openSlots (commitAll children) = [0, 3, 5] ∧
      let alternatives := [0, 3, 5].map fun slot => bundle (commitmentAt (commitAll children) slot)
      (Node.sequence {} children).commit? = some (.choice {} alternatives) ∧
        chain (commitAll children) = some alternatives := by
  intro slot rest children
  have hsettled : (Node.sequence {} children).isSettled = true := by decide
  have hslots : openSlots (commitAll children) = [0, 3, 5] := by decide
  obtain ⟨hcommit, hchain, -⟩ :=
    commit?_sequence_of_openSlots hsettled (by rw [hslots]; decide)
  rw [hslots] at hcommit hchain
  exact ⟨hsettled, hslots, hcommit, hchain⟩

end Node

end Synopsis
