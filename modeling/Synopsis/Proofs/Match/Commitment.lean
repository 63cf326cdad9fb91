/-
Synopsis.Proofs.Match.Commitment — a tree of choices derives nothing new.

Where the ambiguous sequences of a compiled tree are turned into choices, every
derivation of the result is one of the tree itself (`derives_of_commit`): a slot that
a commitment fills may be filled in the sequence, and one that it has no place for may
be absent there. So a line that fits the result is derived by the tree, with the same
bindings (`derivesLine_of_parseWindow_commit`).

A commitment may be absent as a whole, which no occurrence of the sequence has to
match. The sequence is optional then, for all its children are.
-/
import Synopsis.Node.Equality
import Synopsis.Proofs.Match.Soundness
import Synopsis.Proofs.Node.Commitment

namespace Synopsis

namespace Match

open Node (Regular SameMarks fill commitments bundle commitAll)

variable {flags : FlagTable} {readings : List Reading} {keys : List Text}

/-! ## §1 Occurrences -/

/-- Every occurrence of the node is one of the other node, or that one may be absent instead. -/
def OccursAs (flags : FlagTable) (node other : Node) : Prop :=
  ∀ {readings keys}, Occurs flags node readings keys →
    Occurs flags other readings keys ∨ readings = [] ∧ keys = [] ∧ MayBeAbsent flags other

/-- What holds of one occurrence holds of any number of them, if the other node may be repeated and
absent as the node may. The recursion is on the occurrences that follow the first one; if that one
stands for the absence of the other node, the others are all there is. -/
theorem derives_of_occursAs {node other : Node} (hoccurs : OccursAs flags node other)
    (hrepeating : node.repeating = true → other.repeating = true)
    (hpositional : node.positional = true → other.positional = true)
    (habsent : MayBeAbsent flags node → MayBeAbsent flags other) :
    ∀ {readings keys}, Derives flags node readings keys → Derives flags other readings keys
  | _, _, .once h => by
    rcases hoccurs h with h | ⟨rfl, rfl, habsent⟩
    · exact .once h
    · exact .absent habsent
  | _, _, .again hrepeats hposition h hrest => by
    have hrest := derives_of_occursAs hoccurs hrepeating hpositional habsent hrest
    rcases hoccurs h with h | ⟨rfl, rfl, -⟩
    · exact .again (hrepeating hrepeats) (hpositional hposition) h hrest
    · exact hrest
  | _, _, .absent h => .absent (habsent h)

/-- Marks do not change what one occurrence is. -/
theorem occurs_of_withOcc {node : Node} {occ : Occurrence}
    (h : Occurs flags (node.withOcc occ) readings keys) : Occurs flags node readings keys := by
  cases node with
  | literal own name => cases h; exact .literal own name
  | parameter own name => cases h; exact .parameter own name _
  | flag => cases h with | flag hgiven => exact .flag hgiven
  | setting => cases h with | setting hgiven hadmits => exact .setting hgiven hadmits
  | sequence => cases h with | sequence hchildren => exact .sequence hchildren
  | choice => cases h with | choice hmem halternative => exact .choice hmem halternative
  | empty own => cases h; exact .empty own
  | hole => cases h

/-- A slot that is filled is derived as it is when it is open. -/
theorem derives_of_fill {child : Node} (h : Derives flags child.fill readings keys) :
    Derives flags child readings keys := by
  by_cases hopen : child.isOpen = true
  · rw [fill, if_pos hopen] at h
    refine derives_of_occursAs (fun h => .inl (occurs_of_withOcc h)) (fun hrepeating => ?_)
      (fun hpositional => ?_) (fun habsent => ?_) h
    · cases child <;> exact hrepeating
    · simpa [Node.setOptional, Node.positional] using hpositional
    · -- only nothing keeps its marks when it is filled, and that is not open
      cases child with
      | empty => cases (Node.isOpen_iff.mp hopen).2
      | _ => cases habsent.1
  · rwa [fill, if_neg hopen] at h

/-! ## §2 Nodes in a row -/

theorem derivesAll_append_iff {nodes nodes' : List Node} :
    DerivesAll flags (nodes ++ nodes') readings keys ↔
      ∃ r k r' k', readings = r ++ r' ∧ keys = k ++ k' ∧
        DerivesAll flags nodes r k ∧ DerivesAll flags nodes' r' k' := by
  constructor
  · intro h
    induction nodes generalizing readings keys with
    | nil => exact ⟨[], [], readings, keys, rfl, rfl, .nil, h⟩
    | cons node nodes ih =>
      cases h with
      | cons hnode hnodes =>
        obtain ⟨r, k, r', k', rfl, rfl, hfirst, hrest⟩ := ih hnodes
        exact ⟨_, _, r', k', by simp, by simp, .cons hnode hfirst, hrest⟩
  · rintro ⟨r, k, r', k', rfl, rfl, hfirst, hrest⟩
    induction nodes generalizing r k with
    | nil =>
      cases hfirst
      exact hrest
    | cons node nodes ih =>
      cases hfirst with
      | cons hnode hnodes =>
        rw [List.append_assoc, List.append_assoc]
        exact .cons hnode (ih _ _ hnodes)

theorem derivesAll_singleton {node : Node} (h : Derives flags node readings keys) :
    DerivesAll flags [node] readings keys := by
  simpa using DerivesAll.cons h .nil

/-- Nodes that were changed are derived in a row as they were before, if each of them is. -/
theorem derivesAll_of_map {change : Node → Node} {nodes : List Node}
    (hnodes : ∀ node ∈ nodes, ∀ {readings keys}, Derives flags (change node) readings keys →
      Derives flags node readings keys)
    (h : DerivesAll flags (nodes.map change) readings keys) :
    DerivesAll flags nodes readings keys := by
  induction nodes generalizing readings keys with
  | nil => exact h
  | cons node nodes ih =>
    cases h with
    | cons hnode hrest =>
      exact .cons (hnodes node (by simp) hnode)
        (ih (fun other hother => hnodes other (by simp [hother])) hrest)

/-- Open slots that are gone may be absent. -/
theorem derivesAll_of_filter {nodes : List Node}
    (h : DerivesAll flags (nodes.filter (!·.isOpen)) readings keys) :
    DerivesAll flags nodes readings keys := by
  induction nodes generalizing readings keys with
  | nil => exact h
  | cons node nodes ih =>
    by_cases hopen : node.isOpen = true
    · rw [List.filter_cons_of_neg (by simp [hopen])] at h
      obtain ⟨hoptional, hpositional⟩ := Node.isOpen_iff.mp hopen
      have hposition : node.positional? = some true := by
        simpa [Node.positional] using hpositional
      exact .cons (.absent (mayBeAbsent_of_positional hoptional hposition)) (ih h)
    · rw [List.filter_cons_of_pos (by simp [hopen])] at h
      cases h with
      | cons hnode hrest => exact .cons hnode (ih hrest)

/-- What is derived by a commitment is derived by all the children. -/
theorem derivesAll_of_commitment {children committed : List Node}
    (hmem : committed ∈ commitments [] children) (h : DerivesAll flags committed readings keys) :
    DerivesAll flags children readings keys := by
  obtain ⟨earlier, slot, later, rfl, -, rfl⟩ := Node.mem_commitments_iff.mp hmem
  obtain ⟨r, k, r', k', rfl, rfl, hearlier, hrest⟩ := derivesAll_append_iff.mp h
  rw [List.nil_append] at hearlier
  have hearlier := derivesAll_of_map (fun _ _ => derives_of_fill) hearlier
  cases hrest with
  | cons hslot hlater =>
    exact derivesAll_append_iff.mpr ⟨r, k, _, _, rfl, rfl, hearlier,
      .cons hslot (derivesAll_of_filter hlater)⟩

/-- A bundle is derived as its nodes are, or is absent, and they are optional then. -/
theorem derivesAll_of_bundle {nodes : List Node} (h : Derives flags (bundle nodes) readings keys) :
    DerivesAll flags nodes readings keys ∨
      readings = [] ∧ keys = [] ∧ nodes.all Node.optional = true := by
  unfold bundle at h
  split at h
  · exact .inl (derivesAll_singleton h)
  · cases h with
    | once hoccurs =>
      cases hoccurs with
      | sequence hnodes => exact .inl hnodes
    | again hrepeating => cases hrepeating
    | absent habsent => exact .inr ⟨rfl, rfl, habsent.1⟩

/-! ## §3 Trees -/

/-- An occurrence of the choice between the commitments is one of the sequence. -/
theorem occursAs_commitmentChoice {occ : Occurrence} {children : List Node}
    (hfilled : ∀ child ∈ children, child.isEmpty = false)
    (hoptional : (∀ child ∈ children, child.optional = true) → occ.optional = true) :
    OccursAs flags ((Node.commitmentChoice children occ.optional).setRepeating occ.repeating)
      (.sequence occ children) := by
  intro readings keys h
  have h := occurs_of_withOcc h
  rw [Node.commitmentChoice_eq hfilled] at h
  cases h with
  | choice hmem halternative =>
    obtain ⟨committed, hcommitted, rfl⟩ := List.mem_map.mp hmem
    rcases derivesAll_of_bundle halternative with hall | ⟨rfl, rfl, hall⟩
    · exact .inl (.sequence (derivesAll_of_commitment hcommitted hall))
    · have hall := Node.all_optional_of_commitment hcommitted hall
      exact .inr ⟨rfl, rfl, hoptional (List.all_eq_true.mp hall), by simp [flagKey?]⟩

/-- What holds of one occurrence of a group holds of any number of them, if another group has the
same marks. -/
theorem derives_of_sameMarks {node other : Node} (hmarks : SameMarks node other)
    (hgroup : flagKey? other = none) (hoccurs : OccursAs flags node other)
    (h : Derives flags node readings keys) : Derives flags other readings keys := by
  refine derives_of_occursAs hoccurs (fun hrepeating => ?_) (fun hpositional => ?_)
    (fun habsent => ?_) h
  · exact hmarks.repeating_eq ▸ hrepeating
  · exact hmarks.positional_eq ▸ hpositional
  · exact ⟨hmarks.optional_eq ▸ habsent.1, by simp [hgroup]⟩

/-- Where a sequence is turned into a choice, occurrences stay what they are if its children do. -/
theorem occursAs_commit_sequence {occ : Occurrence} {children : List Node}
    (hregular : (Node.sequence occ children).Regular)
    (hchildren : ∀ child ∈ children, ∀ {readings keys}, Derives flags child.commit readings keys →
      Derives flags child readings keys) :
    OccursAs flags (Node.sequence occ children).commit (.sequence occ children) := by
  cases hregular with
  | sequence _ hregular hfilled hoptional =>
  have hsame : ∀ child ∈ children, SameMarks child.commit child :=
    fun child hchild => Node.sameMarks_commit (hregular child hchild)
  have hall {readings keys} (h : DerivesAll flags (commitAll children) readings keys) :
      DerivesAll flags children readings keys :=
    derivesAll_of_map hchildren (Node.commitAll_eq_map children ▸ h)
  intro readings keys h
  rw [Node.commit] at h
  split at h
  · have hfilled := Node.isEmpty_of_mem_commitAll hsame hfilled
    rcases occursAs_commitmentChoice hfilled
      (fun h => hoptional (Node.optional_of_mem_commitAll hsame h)) h with hoccurs | hnone
    · cases hoccurs with
      | sequence hderives => exact .inl (.sequence (hall hderives))
    · exact .inr hnone
  · cases h with
    | sequence hderives => exact .inl (.sequence (hall hderives))

/-- A tree whose ambiguous sequences were turned into choices derives nothing that the tree itself
does not derive. -/
theorem derives_of_commit {node : Node} (hregular : node.Regular)
    (h : Derives flags node.commit readings keys) : Derives flags node readings keys := by
  induction hregular generalizing readings keys with
  | literal => exact h
  | parameter => exact h
  | flag => exact h
  | setting => exact h
  | nothing => exact h
  | @sequence occ children hlength hchildren hfilled hoptional ih =>
    have hregular := Regular.sequence hlength hchildren hfilled hoptional
    exact derives_of_sameMarks (Node.sameMarks_commit hregular) (by simp [flagKey?])
      (occursAs_commit_sequence hregular fun child hchild => ih child hchild) h
  | @choice occ alternatives hlength halternatives hfilled hoptional ih =>
    have hregular := Regular.choice hlength halternatives hfilled hoptional
    refine derives_of_sameMarks (Node.sameMarks_commit hregular) (by simp [flagKey?]) ?_ h
    intro readings keys h
    rw [Node.commit] at h
    cases h with
    | choice hmem halternative =>
      rw [Node.commitAll_eq_map] at hmem
      obtain ⟨original, horiginal, rfl⟩ := List.mem_map.mp hmem
      exact .inl (.choice horiginal (ih original horiginal halternative))

/-! ## §4 Lines -/

/-- **Soundness of commitments.** If the matcher finds bindings for a line with the tree of a usage
whose ambiguous sequences were turned into choices, the tree as the usage was written derives the
words and all flags of the line, and what is bound are the captures of that derivation. -/
theorem derivesLine_of_parseWindow_commit {usage : Text} {tree : Node}
    (husage : Usage.compile usage false = .ok tree) {w : Window} {bindings : Bindings}
    (h : parseWindow tree.commit w = .ok (some bindings)) :
    ∃ parsed words, Line.read w = .ok parsed ∧ parsed.texts? = some words ∧
      DerivesLine tree words parsed.flags bindings := by
  have hregular : tree.Regular := Usage.regular_of_parse (Usage.parse_of_compile husage)
  obtain ⟨parsed, hread, hjudge⟩ := parseWindow_eq_ok_some_iff.mp h
  obtain ⟨words, htexts, readings, keys, hderives, hline⟩ := derivesLine_of_judge hjudge
  exact ⟨parsed, words, hread, htexts, readings, keys, derives_of_commit hregular hderives, hline⟩

/-- The usage leaves open which of its words are given; two of them are taken from the left. -/
theorem derivesLine_commit_three_slots :
    ∃ parsed words, Line.read (.whole "x y".toList) = .ok parsed ∧ parsed.texts? = some words ∧
      DerivesLine
        (.sequence ⟨true, false⟩ [.parameter ⟨true, false⟩ "a".toList,
          .parameter ⟨true, false⟩ "b".toList, .parameter ⟨true, false⟩ "c".toList])
        words parsed.flags ⟨[("a".toList, some "x".toList), ("b".toList, some "y".toList)]⟩ :=
  have husage : Usage.compile "[<a>] [<b>] [<c>]".toList false = .ok _ :=
    eq_ok_of_toOption (by decide +kernel)
  derivesLine_of_parseWindow_commit husage (eq_ok_of_toOption (by decide +kernel))

end Match

end Synopsis
