/-
Synopsis.Proofs.Node.Unambiguous — trees with one open slot at a time.

A tree is unambiguous if none of its sequences has several open children; the values of
flags take no words and do not count. Turning ambiguous sequences into choices makes
every tree unambiguous (`isUnambiguous_commit`) and leaves those alone that are so
already (`commit_eq_self`). Every child is left in some commitment, so that no literal is
lost (`mem_literals_commit_iff`).
-/
import Synopsis.Node.Equality
import Synopsis.Proofs.Match.Soundness
import Synopsis.Proofs.Node.Commitment
import Synopsis.Proofs.Node.Induction

namespace Synopsis

namespace Node

/-! ## §1 Unambiguous trees -/

mutual

/-- No sequence that is reached through sequences and choices has several open children. -/
def isUnambiguous : Node → Bool
  | .sequence _ children => !isAmbiguous children && areUnambiguous children
  | .choice _ alternatives => areUnambiguous alternatives
  | _ => true

def areUnambiguous : List Node → Bool
  | [] => true
  | node :: nodes => node.isUnambiguous && areUnambiguous nodes

end

theorem areUnambiguous_iff {nodes : List Node} :
    areUnambiguous nodes = true ↔ ∀ node ∈ nodes, node.isUnambiguous = true := by
  induction nodes with
  | nil => simp [areUnambiguous]
  | cons node nodes ih => simp [areUnambiguous, ih]

@[simp] theorem isUnambiguous_withOcc (occ : Occurrence) (node : Node) :
    (node.withOcc occ).isUnambiguous = node.isUnambiguous := by
  cases node <;> rfl

@[simp] theorem isUnambiguous_fill (child : Node) :
    child.fill.isUnambiguous = child.isUnambiguous := by
  unfold fill
  split
  · simp [setOptional]
  · rfl

/-- What was filled is not open any more. Nothing keeps its marks, but it was not open. -/
@[simp] theorem isOpen_fill (child : Node) : child.fill.isOpen = false := by
  by_cases hopen : child.isOpen = true
  · rw [fill, if_pos hopen]
    cases child with
    | empty => rw [isOpen_iff] at hopen; cases hopen.2
    | _ => rfl
  · rw [fill, if_neg hopen]
    simpa using hopen

/-! ## §2 The result is unambiguous -/

/-- Only one slot of a commitment is open. -/
theorem countP_isOpen_of_commitment {children committed : List Node}
    (h : committed ∈ commitments [] children) : committed.countP isOpen = 1 := by
  obtain ⟨earlier, slot, later, -, hopen, rfl⟩ := mem_commitments_iff.mp h
  have hearlier : (earlier.map fill).countP isOpen = 0 := by simp
  have hlater : (later.filter (!·.isOpen)).countP isOpen = 0 := by simp
  rw [List.nil_append, List.countP_append, List.countP_cons_of_pos hopen, hearlier, hlater]

theorem isUnambiguous_bundle {nodes : List Node} (hcount : nodes.countP isOpen ≤ 1)
    (h : ∀ node ∈ nodes, node.isUnambiguous = true) : (bundle nodes).isUnambiguous = true := by
  unfold bundle
  split
  · exact h _ (by simp)
  · have hall := areUnambiguous_iff.mpr h
    simp [sequenceOf, isUnambiguous, isAmbiguous, hall, hcount]

theorem isUnambiguous_commitmentChoice {children : List Node}
    (h : ∀ child ∈ children, child.isUnambiguous = true) (optional : Bool) :
    (commitmentChoice children optional).isUnambiguous = true := by
  refine areUnambiguous_iff.mpr ?_
  intro node hnode
  obtain ⟨committed, hcommitted, rfl⟩ := List.mem_map.mp (List.mem_filter.mp hnode).1
  refine isUnambiguous_bundle (Nat.le_of_eq (countP_isOpen_of_commitment hcommitted)) ?_
  exact of_mem_commitment (fun child hchild => by simpa using hchild) h hcommitted

/-- **One slot at a time.** No sequence is ambiguous once the ambiguous ones are turned into
choices. -/
theorem isUnambiguous_commit (node : Node) : node.commit.isUnambiguous = true := by
  induction node using Node.inductionOn with
  | sequence occ children ih =>
    have hchildren := of_mem_commitAll (P := fun node => node.isUnambiguous = true) ih
    rw [commit]
    split
    · simpa [setRepeating] using isUnambiguous_commitmentChoice hchildren occ.optional
    · rename_i hsettled
      simp [isUnambiguous, hsettled, areUnambiguous_iff.mpr hchildren]
  | choice occ alternatives ih =>
    rw [commit]
    exact areUnambiguous_iff.mpr (of_mem_commitAll (P := fun node => node.isUnambiguous = true) ih)
  | _ => rfl

theorem commitAll_eq_self {nodes : List Node} (h : ∀ node ∈ nodes, node.commit = node) :
    commitAll nodes = nodes := by
  rw [commitAll_eq_map]
  exact (List.map_congr_left h).trans nodes.map_id

/-- A tree that is unambiguous already is left as it is. -/
theorem commit_eq_self {node : Node} (h : node.isUnambiguous = true) : node.commit = node := by
  induction node using Node.inductionOn with
  | sequence occ children ih =>
    simp only [isUnambiguous, Bool.and_eq_true, Bool.not_eq_true'] at h
    have hself := commitAll_eq_self fun child hchild =>
      ih child hchild (areUnambiguous_iff.mp h.2 child hchild)
    simp [commit, hself, h.1]
  | choice occ alternatives ih =>
    have hself := commitAll_eq_self fun node hnode =>
      ih node hnode (areUnambiguous_iff.mp h node hnode)
    rw [commit, hself]
  | _ => rfl

/-! ## §3 Literals -/

theorem mem_literalsOfAll_iff {nodes : List Node} {name : Text} :
    name ∈ literalsOfAll nodes ↔ ∃ node ∈ nodes, name ∈ node.literals := by
  induction nodes with
  | nil => simp [literalsOfAll]
  | cons node nodes ih => simp [literalsOfAll, ih]

@[simp] theorem literals_fill (child : Node) : child.fill.literals = child.literals := by
  unfold fill
  split
  · simp [setOptional]
  · rfl

theorem literals_bundle (nodes : List Node) : (bundle nodes).literals = literalsOfAll nodes := by
  unfold bundle
  split
  · simp [literalsOfAll]
  · rfl

/-- A choice has the literals of its candidates, for nothing has none. -/
theorem mem_literals_choiceOf_iff {candidates : List Node} {optional : Bool} {name : Text} :
    name ∈ (choiceOf candidates optional).literals ↔ name ∈ literalsOfAll candidates := by
  have hfilled {node : Node} (h : name ∈ node.literals) : node.isEmpty = false := by
    cases node with
    | empty => cases h
    | _ => rfl
  rw [choiceOf, literals, mem_literalsOfAll_iff, mem_literalsOfAll_iff]
  constructor
  · rintro ⟨node, hnode, hname⟩
    exact ⟨node, (List.mem_filter.mp hnode).1, hname⟩
  · rintro ⟨node, hnode, hname⟩
    exact ⟨node, List.mem_filter.mpr ⟨hnode, by simp [hfilled hname]⟩, hname⟩

/-- The last open slot of a list of nodes: none of those after it is open. -/
theorem exists_last_isOpen {nodes : List Node} (h : ∃ node ∈ nodes, node.isOpen = true) :
    ∃ earlier slot later, nodes = earlier ++ slot :: later ∧ slot.isOpen = true ∧
      ∀ node ∈ later, node.isOpen = false := by
  induction nodes with
  | nil => simp at h
  | cons node nodes ih =>
    by_cases hlater : ∃ other ∈ nodes, other.isOpen = true
    · obtain ⟨earlier, slot, later, rfl, hopen, hnone⟩ := ih hlater
      exact ⟨node :: earlier, slot, later, rfl, hopen, hnone⟩
    · have hnone : ∀ other ∈ nodes, other.isOpen = false := by simpa using hlater
      have hopen : node.isOpen = true := by simpa [hlater] using h
      exact ⟨[], node, nodes, rfl, hopen, hnone⟩

/-- The commitments of a sequence have the literals of its children between them. The last one has
them all, since it leaves no slot out. -/
theorem mem_literals_commitmentChoice_iff {children : List Node}
    (hambiguous : isAmbiguous children = true) {optional : Bool} {name : Text} :
    name ∈ (commitmentChoice children optional).literals ↔ name ∈ literalsOfAll children := by
  rw [commitmentChoice, mem_literals_choiceOf_iff, mem_literalsOfAll_iff]
  constructor
  · rintro ⟨node, hnode, hname⟩
    obtain ⟨committed, hcommitted, rfl⟩ := List.mem_map.mp hnode
    rw [literals_bundle, mem_literalsOfAll_iff] at hname
    obtain ⟨member, hmember, hname⟩ := hname
    refine of_mem_commitment (P := fun node => name ∈ node.literals → name ∈ literalsOfAll children)
      (fun child h => by simpa using h) (fun child hchild h => ?_) hcommitted member hmember hname
    exact mem_literalsOfAll_iff.mpr ⟨child, hchild, h⟩
  · intro hname
    obtain ⟨earlier, slot, later, rfl, hopen, hnone⟩ :=
      exists_last_isOpen (exists_isOpen_of_isAmbiguous hambiguous)
    have hkept : later.filter (!·.isOpen) = later :=
      List.filter_eq_self.mpr fun node hnode => by simp [hnone node hnode]
    refine ⟨bundle (earlier.map fill ++ slot :: later), List.mem_map.mpr ⟨_, ?_, rfl⟩, ?_⟩
    · exact mem_commitments_iff.mpr ⟨earlier, slot, later, rfl, hopen, by rw [hkept, List.nil_append]⟩
    · rw [literals_bundle, mem_literalsOfAll_iff]
      rw [mem_literalsOfAll_iff] at hname
      simpa [or_and_right, exists_or] using hname

theorem mem_literals_commitAll_iff {nodes : List Node} {name : Text}
    (h : ∀ node ∈ nodes, name ∈ node.commit.literals ↔ name ∈ node.literals) :
    name ∈ literalsOfAll (commitAll nodes) ↔ name ∈ literalsOfAll nodes := by
  rw [mem_literalsOfAll_iff, mem_literalsOfAll_iff, commitAll_eq_map]
  constructor
  · rintro ⟨_, hmem, hname⟩
    obtain ⟨node, hnode, rfl⟩ := List.mem_map.mp hmem
    exact ⟨node, hnode, (h node hnode).mp hname⟩
  · rintro ⟨node, hnode, hname⟩
    exact ⟨node.commit, List.mem_map_of_mem hnode, (h node hnode).mpr hname⟩

/-- No literal is lost, and none is gained. -/
theorem mem_literals_commit_iff (node : Node) {name : Text} :
    name ∈ node.commit.literals ↔ name ∈ node.literals := by
  induction node using Node.inductionOn with
  | sequence occ children ih =>
    rw [commit]
    split
    · rename_i hambiguous
      rw [setRepeating, literals_withOcc, mem_literals_commitmentChoice_iff hambiguous]
      exact mem_literals_commitAll_iff ih
    · exact mem_literals_commitAll_iff ih
  | choice occ alternatives ih => exact mem_literals_commitAll_iff ih
  | _ => rfl

/-! ## §4 Trees of which it is settled what is open -/

theorem areSettled_iff {nodes : List Node} :
    areSettled nodes = true ↔ ∀ node ∈ nodes, node.isSettled = true := by
  induction nodes with
  | nil => simp [areSettled]
  | cons node nodes ih => simp [areSettled, ih]

@[simp] theorem isSettled_fill (child : Node) : child.fill.isSettled = child.isSettled := by
  unfold fill
  split
  · cases child <;> rfl
  · rfl

/-- If it is decided of all children whether they are positional, it is settled which are open. -/
theorem isSettled_sequence {occ : Occurrence} {children : List Node}
    (hsettled : ∀ child ∈ children, child.isSettled = true)
    (hdecided : ∀ child ∈ commitAll children, child.IsDecided) :
    (Node.sequence occ children).isSettled = true := by
  have hall : (commitAll children).all
      (fun child => !child.optional || child.positional?.isSome) = true := by
    refine List.all_eq_true.mpr ?_
    intro child hchild
    have hchild : child.positional? = some child.positional := hdecided child hchild
    simp [hchild]
  simp [isSettled, areSettled_iff.mpr hsettled, hall]

theorem Regular.isSettled {node : Node} (h : node.Regular) : node.isSettled = true := by
  induction h with
  | sequence _ hregular _ _ ih =>
    exact isSettled_sequence ih
      (isDecided_of_mem_commitAll (fun child h => sameMarks_commit (hregular child h)) hregular)
  | choice _ _ _ _ ih => exact areSettled_iff.mpr ih
  | _ => rfl

theorem isSettled_bundle {nodes : List Node} (hsettled : ∀ node ∈ nodes, node.isSettled = true)
    (hunambiguous : ∀ node ∈ nodes, node.isUnambiguous = true)
    (hdecided : ∀ node ∈ nodes, node.IsDecided) : (bundle nodes).isSettled = true := by
  have hself := commitAll_eq_self fun node h => commit_eq_self (hunambiguous node h)
  unfold bundle
  split
  · exact hsettled _ (by simp)
  · exact isSettled_sequence hsettled (by rwa [hself])

/-- It is settled which slots are open in the result as well. -/
theorem Regular.isSettled_commit {node : Node} (h : node.Regular) : node.commit.isSettled = true := by
  induction h with
  | @sequence occ children _ hregular _ _ ih =>
    have hsettled := of_mem_commitAll (P := fun node => node.isSettled = true) ih
    have hunambiguous := of_mem_commitAll (P := fun node => node.isUnambiguous = true)
      fun child (_ : child ∈ children) => child.isUnambiguous_commit
    have hdecided := isDecided_of_mem_commitAll
      (fun child h => sameMarks_commit (hregular child h)) hregular
    rw [commit]
    split
    · refine areSettled_iff.mpr ?_
      intro node hnode
      obtain ⟨committed, hcommitted, rfl⟩ := List.mem_map.mp (List.mem_filter.mp hnode).1
      exact isSettled_bundle
        (of_mem_commitment (fun child hchild => by simpa using hchild) hsettled hcommitted)
        (of_mem_commitment (fun child hchild => by simpa using hchild) hunambiguous hcommitted)
        (of_mem_commitment (fun _ => isDecided_fill) hdecided hcommitted)
    · have hself := commitAll_eq_self fun node h => commit_eq_self (hunambiguous node h)
      exact isSettled_sequence hsettled (by rwa [hself])
  | choice _ _ _ _ ih => exact areSettled_iff.mpr (of_mem_commitAll ih)
  | _ => rfl

end Node

/-! ## §5 Compiled trees -/

namespace Usage

/-- **What turning ambiguous sequences into choices guarantees.** It never fails for the tree of a
usage. The result has no ambiguous sequence; it has the marks of the tree, is positional if the tree
is, and has the same literals. A tree without ambiguous sequences is left as it is, and so is the
result. -/
theorem commit_of_compile {usage : Text} {tree : Node} (husage : compile usage false = .ok tree) :
    ∃ committed, tree.commit? = some committed ∧ compile usage true = .ok committed ∧
      committed.isUnambiguous = true ∧
      (committed.optional = tree.optional ∧ committed.repeating = tree.repeating ∧
        committed.positional? = tree.positional?) ∧
      (∀ name, name ∈ committed.literals ↔ name ∈ tree.literals) ∧
      (tree.isUnambiguous = true → committed = tree) ∧
      committed.commit? = some committed := by
  have hparse := parse_of_compile husage
  have hregular := regular_of_parse hparse
  have hsame := Node.sameMarks_commit hregular
  have hunambiguous := tree.isUnambiguous_commit
  refine ⟨tree.commit, ?_, ?_, hunambiguous,
    ⟨hsame.optional_eq, hsame.repeating_eq, hsame.positional?_eq⟩,
    fun _ => tree.mem_literals_commit_iff, Node.commit_eq_self, ?_⟩
  · rw [Node.commit?, if_pos hregular.isSettled]
  · rw [compile, hparse]
    rfl
  · rw [Node.commit?, if_pos hregular.isSettled_commit, Node.commit_eq_self hunambiguous]

/-- Two slots are open in the group and, with the group, two in the sequence around it. -/
theorem commit_of_compile_nested_slots :
    ∃ tree committed, compile "x [[<a>] y [b]] --v [c...]".toList false = .ok tree ∧
      tree.isUnambiguous = false ∧ tree.commit? = some committed ∧
      compile "x [[<a>] y [b]] --v [c...]".toList true = .ok committed ∧
      committed.isUnambiguous = true ∧
      (committed.optional = tree.optional ∧ committed.repeating = tree.repeating ∧
        committed.positional? = tree.positional?) ∧
      (∀ name, name ∈ committed.literals ↔ name ∈ tree.literals) ∧
      (tree.isUnambiguous = true → committed = tree) ∧
      committed.commit? = some committed := by
  have husage : compile "x [[<a>] y [b]] --v [c...]".toList false =
      .ok (.sequence {} [.literal {} ['x'],
        .sequence ⟨true, false⟩ [.parameter ⟨true, false⟩ ['a'], .literal {} ['y'],
          .literal ⟨true, false⟩ ['b']],
        .flag {} ['v'], .literal ⟨true, true⟩ ['c']]) :=
    Match.eq_ok_of_toOption (by decide +kernel)
  obtain ⟨committed, h⟩ := commit_of_compile husage
  exact ⟨_, committed, husage, by decide, h⟩

end Usage

end Synopsis
