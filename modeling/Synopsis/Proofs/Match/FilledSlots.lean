/-
Synopsis.Proofs.Match.FilledSlots — whether the slots that a commitment fills take a word.

A commitment fills a slot by taking its optional mark away. That does not make it take a
word: a group of optional members is there even if none of them is, and so is a
choice one of whose alternatives may be absent. Such a node is vacuous
(`isVacuous_iff`). Every other slot that is filled takes a word in every match of the
commitment (`fillsSlots_of_compile`), and the slots behind the one that is left open have
no place in it. So the slots that take words are the first ones, unless one of them is
vacuous; `[[a] [b]] [c]` matches `c` alone (`not_forall_fillsSlots_of_compile`).
-/
import Synopsis.Proofs.Match.Commitment
import Mathlib.Data.List.Forall2

namespace Synopsis

/-! ## §1 Sequences that are turned into choices -/

namespace Node

/-- A sequence that is turned into a choice is regular, its children make it ambiguous once they
are done, and the choice is the one between their commitments. -/
structure IsCommitted (original choice : Node) : Prop where
  regular : original.Regular
  eq : ∃ occ children, original = .sequence occ children ∧
    isAmbiguous (commitAll children) = true ∧
    choice = commitmentChoice (commitAll children) occ.optional

theorem mem_committedOfAll {nodes : List Node} {entry : Node × Node}
    (h : entry ∈ committedOfAll nodes) : ∃ node ∈ nodes, entry ∈ node.committed := by
  induction nodes with
  | nil => cases h
  | cons node nodes ih =>
    rw [committedOfAll, List.mem_append] at h
    rcases h with hnode | hnodes
    · exact ⟨node, by simp, hnode⟩
    · obtain ⟨other, hother, hmem⟩ := ih hnodes
      exact ⟨other, by simp [hother], hmem⟩

theorem isCommitted_of_mem {node : Node} (hregular : node.Regular) {original choice : Node}
    (h : (original, choice) ∈ node.committed) : IsCommitted original choice := by
  induction hregular with
  | @sequence occ children hlength hchildren hfilled hoptional ih =>
    rw [committed, List.mem_append] at h
    rcases h with hmem | hself
    · obtain ⟨child, hchild, hmem⟩ := mem_committedOfAll hmem
      exact ih child hchild hmem
    · split at hself
      · rename_i hambiguous
        obtain ⟨rfl, rfl⟩ := Prod.mk.inj (List.mem_singleton.mp hself)
        exact ⟨.sequence hlength hchildren hfilled hoptional, occ, children, rfl, hambiguous, rfl⟩
      · cases hself
  | choice _ _ _ _ ih =>
    obtain ⟨alternative, halternative, hmem⟩ := mem_committedOfAll h
    exact ih alternative halternative hmem
  | _ => cases h

/-- The alternatives of such a choice are the commitments of the sequence. -/
theorem IsCommitted.mem_commitments {occ : Occurrence} {children alternatives : List Node}
    {marks : Occurrence} (h : IsCommitted (.sequence occ children) (.choice marks alternatives))
    {alternative : Node} (hmem : alternative ∈ alternatives) :
    ∃ committed ∈ commitments [] (commitAll children), alternative = bundle committed := by
  obtain ⟨hregular, occ', children', hsequence, -, hchoice⟩ := h
  obtain ⟨rfl, rfl⟩ := Node.sequence.inj hsequence
  cases hregular with
  | sequence _ hchildren hfilled _ =>
  have hsame : ∀ child ∈ children, SameMarks child.commit child :=
    fun child hchild => sameMarks_commit (hchildren child hchild)
  rw [commitmentChoice_eq (isEmpty_of_mem_commitAll hsame hfilled)] at hchoice
  obtain ⟨-, rfl⟩ := Node.choice.inj hchoice
  obtain ⟨committed, hcommitted, rfl⟩ := List.mem_map.mp hmem
  exact ⟨committed, hcommitted, rfl⟩

/-- A slot that is filled is not optional. -/
theorem optional_fill {child : Node} (h : child.isOpen = true) : child.fill.optional = false := by
  rw [fill, if_pos h]
  cases child with
  | empty => cases (isOpen_iff.mp h).2
  | _ => rfl

end Node

namespace Match

open Line (Parsed)
open Node (commitAll fill bundle IsCommitted)

/-! ## §2 Nodes that may take no word -/

def mayBeAbsent (flags : FlagTable) (node : Node) : Bool :=
  node.optional && ((flagKey? node).bind flags.get?).isNone

mutual

/-- The node may be there without taking a word, as the flags are. -/
def isVacuous (flags : FlagTable) : Node → Bool
  | .literal _ _ | .parameter _ _ | .hole _ => false
  | .flag _ key => flags.get? key == some none
  | .setting _ key value => (flags.get? key).any value.admitsGiven
  | .sequence _ children => areVacuous flags children
  | .choice _ alternatives => anyVacuous flags alternatives
  | .empty _ => true

def areVacuous (flags : FlagTable) : List Node → Bool
  | [] => true
  | node :: nodes => (mayBeAbsent flags node || isVacuous flags node) && areVacuous flags nodes

def anyVacuous (flags : FlagTable) : List Node → Bool
  | [] => false
  | node :: nodes => mayBeAbsent flags node || isVacuous flags node || anyVacuous flags nodes

end

variable {flags : FlagTable}

theorem mayBeAbsent_iff {node : Node} : mayBeAbsent flags node = true ↔ MayBeAbsent flags node := by
  unfold mayBeAbsent MayBeAbsent
  cases flagKey? node <;> simp

theorem areVacuous_iff {nodes : List Node} :
    areVacuous flags nodes = true ↔
      ∀ node ∈ nodes, MayBeAbsent flags node ∨ isVacuous flags node = true := by
  induction nodes with
  | nil => simp [areVacuous]
  | cons node nodes ih => simp [areVacuous, mayBeAbsent_iff, ih]

theorem anyVacuous_iff {nodes : List Node} :
    anyVacuous flags nodes = true ↔
      ∃ node ∈ nodes, MayBeAbsent flags node ∨ isVacuous flags node = true := by
  induction nodes with
  | nil => simp [anyVacuous]
  | cons node nodes ih => simp [anyVacuous, mayBeAbsent_iff, ih, or_assoc]

@[simp] theorem isVacuous_withOcc (occ : Occurrence) (node : Node) :
    isVacuous flags (node.withOcc occ) = isVacuous flags node := by
  cases node <;> simp [Node.withOcc, isVacuous]

@[simp] theorem isVacuous_fill (child : Node) :
    isVacuous flags child.fill = isVacuous flags child := by
  unfold fill
  split
  · exact isVacuous_withOcc _ child
  · rfl

/-- A node derives no words if it may be absent or one occurrence of it derives none. -/
theorem derives_nil_iff {node : Node} :
    (∃ keys, Derives flags node [] keys) ↔
      MayBeAbsent flags node ∨ ∃ keys, Occurs flags node [] keys := by
  constructor
  · rintro ⟨keys, h⟩
    generalize hreadings : ([] : List Reading) = readings at h
    cases h with
    | once hoccurs =>
      subst hreadings
      exact .inr ⟨keys, hoccurs⟩
    | again _ _ hoccurs _ =>
      obtain ⟨rfl, rfl⟩ := List.append_eq_nil_iff.mp hreadings.symm
      exact .inr ⟨_, hoccurs⟩
    | absent habsent => exact .inl habsent
  · rintro (habsent | ⟨keys, hoccurs⟩)
    · exact ⟨[], .absent habsent⟩
    · exact ⟨keys, .once hoccurs⟩

/-- Several nodes derive no words if each of them derives none. -/
theorem derivesAll_nil_iff {nodes : List Node} :
    (∃ keys, DerivesAll flags nodes [] keys) ↔
      ∀ node ∈ nodes, ∃ keys, Derives flags node [] keys := by
  induction nodes with
  | nil => exact ⟨fun _ => by simp, fun _ => ⟨[], .nil⟩⟩
  | cons node nodes ih =>
    rw [List.forall_mem_cons, ← ih]
    constructor
    · rintro ⟨keys, h⟩
      generalize hreadings : ([] : List Reading) = readings at h
      cases h with
      | cons hnode hnodes =>
        obtain ⟨rfl, rfl⟩ := List.append_eq_nil_iff.mp hreadings.symm
        exact ⟨⟨_, hnode⟩, _, hnodes⟩
    · rintro ⟨⟨_, hnode⟩, _, hnodes⟩
      exact ⟨_, .cons hnode hnodes⟩

/-- The vacuous nodes are those that may occur without taking a word. -/
theorem isVacuous_iff {node : Node} :
    isVacuous flags node = true ↔ ∃ keys, Occurs flags node [] keys := by
  induction node using Node.inductionOn with
  | literal | parameter | hole =>
    constructor
    · intro h
      simp [isVacuous] at h
    · rintro ⟨_, h⟩
      cases h
  | empty occ => exact ⟨fun _ => ⟨[], .empty occ⟩, fun _ => by simp [isVacuous]⟩
  | flag occ key =>
    rw [isVacuous, beq_iff_eq]
    constructor
    · exact fun h => ⟨[key], .flag h⟩
    · rintro ⟨_, h⟩
      cases h with
      | flag hgiven => exact hgiven
  | setting occ key value =>
    rw [isVacuous, Option.any_eq_true]
    constructor
    · rintro ⟨given, hgiven, hadmits⟩
      exact ⟨[key], .setting hgiven hadmits⟩
    · rintro ⟨_, h⟩
      cases h with
      | setting hgiven hadmits => exact ⟨_, hgiven, hadmits⟩
  | sequence occ children ih =>
    have hall : isVacuous flags (.sequence occ children) = true ↔
        ∃ keys, DerivesAll flags children [] keys := by
      rw [isVacuous, areVacuous_iff, derivesAll_nil_iff]
      exact forall₂_congr fun child hchild => by rw [derives_nil_iff, ih child hchild]
    rw [hall]
    constructor
    · rintro ⟨keys, h⟩
      exact ⟨keys, .sequence h⟩
    · rintro ⟨keys, h⟩
      cases h with
      | sequence hchildren => exact ⟨keys, hchildren⟩
  | choice occ alternatives ih =>
    have hany : isVacuous flags (.choice occ alternatives) = true ↔
        ∃ alternative ∈ alternatives, ∃ keys, Derives flags alternative [] keys := by
      rw [isVacuous, anyVacuous_iff]
      exact exists_congr fun node => and_congr_right fun hnode => by
        rw [derives_nil_iff, ih node hnode]
    rw [hany]
    constructor
    · rintro ⟨alternative, hmem, keys, h⟩
      exact ⟨keys, .choice hmem h⟩
    · rintro ⟨keys, h⟩
      cases h with
      | choice hmem halternative => exact ⟨_, hmem, keys, halternative⟩

/-- A slot that is filled derives no words just if it is vacuous. -/
theorem derives_fill_nil_iff {child : Node} (hopen : child.isOpen = true) :
    (∃ keys, Derives flags child.fill [] keys) ↔ isVacuous flags child = true := by
  rw [derives_nil_iff, ← isVacuous_iff, isVacuous_fill]
  constructor
  · rintro (habsent | hvacuous)
    · cases (Node.optional_fill hopen).symm.trans habsent.1
    · exact hvacuous
  · exact .inr

/-! ## §3 What each node takes -/

/-- The share of the readings that a node derives. -/
def Shares (flags : FlagTable) : List Node → List (List Reading) → Prop :=
  List.Forall₂ fun node share => ∃ keys, Derives flags node share keys

/-- The words between the two given ones are shared out among the nodes, in the order of both. -/
structure Divides (line : Parsed) (token next : Nat) (nodes : List Node)
    (shares : List (List Reading)) : Prop where
  derives : Shares line.flags nodes shares
  spells : Spells line token shares.flatten
  next_eq : next = token + shares.flatten.length

/-- Every slot that is filled has a share of the words, unless it is vacuous. -/
def FillsSlots (flags : FlagTable) (earlier : List Node) (shares : List (List Reading)) : Prop :=
  ∀ taken ∈ earlier.zip shares, taken.1.isOpen = true → taken.2 = [] →
    isVacuous flags taken.1 = true

/-- No open slot that takes a word stands behind one that takes none, unless that one is vacuous. -/
def TakesInOrder (flags : FlagTable) (nodes : List Node) (shares : List (List Reading)) : Prop :=
  (nodes.zip shares).Pairwise fun before behind =>
    before.1.isOpen = true → behind.1.isOpen = true → before.2 = [] → behind.2 ≠ [] →
      isVacuous flags before.1 = true

variable {line : Parsed} {earlier later nodes : List Node} {slot : Node}
  {shares : List (List Reading)} {token next : Nat}

theorem exists_shares_of_derivesAll {readings : List Reading} {keys : List Text}
    (h : DerivesAll flags nodes readings keys) :
    ∃ shares, shares.flatten = readings ∧ Shares flags nodes shares := by
  induction nodes generalizing readings keys with
  | nil =>
    cases h
    exact ⟨[], rfl, .nil⟩
  | cons node nodes ih =>
    cases h with
    | @cons _ _ share _ own _ hnode hnodes =>
      obtain ⟨shares, rfl, hshares⟩ := ih hnodes
      exact ⟨share :: shares, rfl, .cons ⟨own, hnode⟩ hshares⟩

/-- What nodes in two rows take is what those of each row take. -/
theorem exists_append_of_shares (h : Shares flags (earlier ++ later) shares) :
    ∃ front back, shares = front ++ back ∧ Shares flags earlier front ∧ Shares flags later back := by
  refine ⟨shares.take earlier.length, shares.drop earlier.length,
    (List.take_append_drop _ _).symm, ?_, ?_⟩
  · simpa [Shares] using List.forall₂_take earlier.length h
  · simpa [Shares] using List.forall₂_drop earlier.length h

theorem Shares.append {front back : List (List Reading)} (hfront : Shares flags earlier front)
    (hback : Shares flags later back) : Shares flags (earlier ++ later) (front ++ back) :=
  List.rel_append hfront hback

theorem fillsSlots_of_shares (h : Shares flags (earlier.map fill) shares) :
    FillsSlots flags earlier shares := by
  rintro ⟨child, share⟩ hmem hopen rfl
  obtain ⟨-, hshares⟩ := List.forall₂_iff_zip.mp (List.forall₂_map_left_iff.mp h)
  exact (derives_fill_nil_iff hopen).mp (hshares hmem)

/-- What the slots take that are filled they may take when they are open. -/
theorem shares_of_fill (h : Shares flags (earlier.map fill) shares) :
    Shares flags earlier shares := by
  refine (List.forall₂_map_left_iff.mp h).imp ?_
  rintro child share ⟨keys, hderives⟩
  exact ⟨keys, derives_of_fill hderives⟩

/-- Open slots that are gone have an empty share. -/
theorem exists_shares_of_filter (h : Shares flags (nodes.filter (!·.isOpen)) shares) :
    ∃ shares', shares'.flatten = shares.flatten ∧ Shares flags nodes shares' ∧
      ∀ taken ∈ nodes.zip shares', taken.1.isOpen = true → taken.2 = [] := by
  induction nodes generalizing shares with
  | nil =>
    cases h
    exact ⟨[], rfl, .nil, by simp⟩
  | cons node nodes ih =>
    by_cases hopen : node.isOpen = true
    · rw [List.filter_cons_of_neg (by simp [hopen])] at h
      obtain ⟨shares', hflatten, hshares, hempty⟩ := ih h
      obtain ⟨hoptional, hpositional⟩ := Node.isOpen_iff.mp hopen
      have habsent : MayBeAbsent flags node :=
        mayBeAbsent_of_positional hoptional (by simpa [Node.positional] using hpositional)
      refine ⟨[] :: shares', hflatten, .cons ⟨[], .absent habsent⟩ hshares, ?_⟩
      intro taken hmem hother
      rcases List.mem_cons.mp hmem with rfl | hmem
      · rfl
      · exact hempty taken hmem hother
    · rw [List.filter_cons_of_pos (by simp [hopen])] at h
      cases h with
      | @cons _ own _ shares hnode hnodes =>
        obtain ⟨shares', hflatten, hshares, hempty⟩ := ih hnodes
        refine ⟨own :: shares', by simp [hflatten], .cons hnode hshares, ?_⟩
        intro taken hmem hother
        rcases List.mem_cons.mp hmem with rfl | hmem
        · exact absurd hother hopen
        · exact hempty taken hmem hother

/-! ## §4 Commitments -/

/-- However the words are shared out among the members of a commitment, the filled slots among
them have a share. -/
theorem Divides.fillsSlots
    (h : Divides line token next (earlier.map fill ++ later) shares) :
    FillsSlots line.flags earlier shares := by
  obtain ⟨front, back, rfl, hfront, -⟩ := exists_append_of_shares h.derives
  have hzip : earlier.zip (front ++ back) = earlier.zip front := by
    have hlength : earlier.length = front.length := by simpa using hfront.length_eq
    rw [← List.append_nil earlier, List.zip_append hlength, List.zip_nil_left, List.append_nil,
      List.append_nil]
  rw [FillsSlots, hzip]
  exact fillsSlots_of_shares hfront

/-- The words that a commitment takes are shared out among all the children of the sequence, and the
open slots take them in their order. -/
theorem Divides.exists_takesInOrder
    (h : Divides line token next (earlier.map fill ++ slot :: later.filter (!·.isOpen)) shares) :
    ∃ shares, Divides line token next (earlier ++ slot :: later) shares ∧
      TakesInOrder line.flags (earlier ++ slot :: later) shares := by
  obtain ⟨hshares, hspells, hnext⟩ := h
  obtain ⟨front, back, rfl, hfront, hback⟩ := exists_append_of_shares hshares
  cases hback with
  | @cons _ own _ back hslot hback =>
    obtain ⟨back', hflatten, hback, hempty⟩ := exists_shares_of_filter hback
    have hsame : (front ++ own :: back').flatten = (front ++ own :: back).flatten := by
      simp [hflatten]
    refine ⟨front ++ own :: back', ⟨?_, by rwa [hsame], by rwa [hsame]⟩, ?_⟩
    · exact (shares_of_fill hfront).append (.cons hslot hback)
    · have hlength : earlier.length = front.length := by simpa using hfront.length_eq
      have hfilled := fillsSlots_of_shares hfront
      rw [TakesInOrder, List.zip_append hlength, List.zip_cons_cons, List.pairwise_append,
        List.pairwise_cons]
      -- before the slot all that are open are filled, and behind it none takes a word
      refine ⟨List.pairwise_of_forall_mem_list ?_, ⟨?_, List.pairwise_of_forall_mem_list ?_⟩, ?_⟩
      · exact fun before hbefore _ _ hopen _ hnone _ => hfilled before hbefore hopen hnone
      · exact fun behind hbehind _ hopen _ hsome => absurd (hempty behind hbehind hopen) hsome
      · exact fun _ _ behind hbehind _ hopen _ hsome => absurd (hempty behind hbehind hopen) hsome
      · exact fun before hbefore _ _ hopen _ hnone _ => hfilled before hbefore hopen hnone

/-- What a commitment takes in a match is shared out among its members, if a slot is filled in
it: then it is not absent. -/
theorem exists_divides_of_process {count : Nat} {last : Bool} {limit : Option Nat}
    {memory after : Memory}
    (h : process line (bundle (earlier.map fill ++ later)) token last limit memory =
      (.reached next count, after))
    (hfilled : ∃ child ∈ earlier, child.isOpen = true) :
    ∃ shares, Divides line token next (earlier.map fill ++ later) shares := by
  obtain ⟨readings, keys, hderives, hnext, hspells, -⟩ :=
    derives_of_process (occurs_of_attempt line _) h
  rcases derivesAll_of_bundle hderives with hall | ⟨-, -, hoptional⟩
  · obtain ⟨shares, rfl, hshares⟩ := exists_shares_of_derivesAll hall
    exact ⟨shares, hshares, hspells, hnext⟩
  · obtain ⟨child, hchild, hopen⟩ := hfilled
    have hfill := List.all_eq_true.mp hoptional child.fill
      (List.mem_append_left later (List.mem_map_of_mem hchild))
    cases (Node.optional_fill hopen).symm.trans hfill

/-- What the choice between the commitments takes is shared out among the children of the sequence,
unless it takes no word: then the commitment that was chosen may be absent. -/
theorem exists_takesInOrder_of_attempt {children alternatives : List Node} {marks : Occurrence}
    {last : Bool} {memory after : Memory}
    (halternatives : ∀ alternative ∈ alternatives, ∃ earlier slot later,
      children = earlier ++ slot :: later ∧
        alternative = bundle (earlier.map fill ++ slot :: later.filter (!·.isOpen)))
    (h : attempt line (.choice marks alternatives) token last memory = (.upTo next, after)) :
    next = token ∨ ∃ shares, Divides line token next children shares ∧
      TakesInOrder line.flags children shares := by
  obtain ⟨readings, keys, hoccurs, hnext, hspells, -⟩ := occurs_of_attempt line _ h
  cases hoccurs with
  | choice hmem halternative =>
    obtain ⟨earlier, slot, later, rfl, rfl⟩ := halternatives _ hmem
    rcases derivesAll_of_bundle halternative with hall | ⟨rfl, -, -⟩
    · obtain ⟨shares, rfl, hshares⟩ := exists_shares_of_derivesAll hall
      exact .inr (Divides.exists_takesInOrder ⟨hshares, hspells, hnext⟩)
    · exact .inl hnext

/-- **Filled slots take words.** For each sequence of a usage that is turned into a choice, the
alternatives of the choice fill the open slots before one of them and have no place for those
behind it. In a match of such an alternative, however the words it takes are shared out among its
members, each filled slot takes a word unless it is vacuous. So if the choice is matched and takes
words, they are shared out among the children of the sequence, and the open slots that take words
are the first ones, but for those that are vacuous. -/
theorem fillsSlots_of_compile {usage : Text} {tree : Node}
    (husage : Usage.compile usage false = .ok tree) {occ marks : Occurrence}
    {children alternatives : List Node}
    (hcommitted : (.sequence occ children, .choice marks alternatives) ∈ tree.committed)
    (line : Parsed) (token : Nat) (last : Bool) (memory : Memory) :
    Usage.compile usage true = .ok tree.commit ∧
      (∀ alternative ∈ alternatives, ∃ earlier slot later,
        commitAll children = earlier ++ slot :: later ∧ slot.isOpen = true ∧
          alternative = bundle (earlier.map fill ++ slot :: later.filter (!·.isOpen)) ∧
          ∀ limit next count after, process line alternative token last limit memory =
              (.reached next count, after) → (∃ child ∈ earlier, child.isOpen = true) →
            let members := earlier.map fill ++ slot :: later.filter (!·.isOpen)
            (∃ shares, Divides line token next members shares) ∧
              ∀ shares, Divides line token next members shares →
                FillsSlots line.flags earlier shares) ∧
      ∀ next after,
        attempt line (.choice marks alternatives) token last memory = (.upTo next, after) →
          next = token ∨ ∃ shares, Divides line token next (commitAll children) shares ∧
            TakesInOrder line.flags (commitAll children) shares := by
  have hparse := Usage.parse_of_compile husage
  have hmembers := Node.isCommitted_of_mem (Usage.regular_of_parse hparse) hcommitted
  have halternatives : ∀ alternative ∈ alternatives, ∃ earlier slot later,
      commitAll children = earlier ++ slot :: later ∧ slot.isOpen = true ∧
        alternative = bundle (earlier.map fill ++ slot :: later.filter (!·.isOpen)) := by
    intro alternative hmem
    obtain ⟨committed, hmem', rfl⟩ := hmembers.mem_commitments hmem
    obtain ⟨earlier, slot, later, hchildren, hopen, rfl⟩ := Node.mem_commitments_iff.mp hmem'
    exact ⟨earlier, slot, later, hchildren, hopen, rfl⟩
  refine ⟨by rw [Usage.compile, hparse]; rfl, fun alternative hmem => ?_, fun next after h => ?_⟩
  · obtain ⟨earlier, slot, later, hchildren, hopen, rfl⟩ := halternatives alternative hmem
    refine ⟨earlier, slot, later, hchildren, hopen, rfl, ?_⟩
    intro _ _ _ _ hprocess hfilled
    exact ⟨exists_divides_of_process hprocess hfilled, fun _ => Divides.fillsSlots⟩
  · refine exists_takesInOrder_of_attempt (fun alternative hmem => ?_) h
    obtain ⟨earlier, slot, later, hchildren, -, heq⟩ := halternatives alternative hmem
    exact ⟨earlier, slot, later, hchildren, heq⟩

/-- The first slot is filled and takes a word, with the word behind it that has to be there. -/
theorem fillsSlots_of_compile_second_slot :
    let children : List Node := [.parameter ⟨true, false⟩ "a".toList, .literal {} "x".toList,
      .sequence ⟨true, false⟩ [.literal {} "b".toList, .literal {} "c".toList]]
    let line : Parsed := ⟨[⟨0, 1, some "1".toList⟩, ⟨2, 3, some "x".toList⟩,
      ⟨4, 5, some "b".toList⟩, ⟨6, 7, some "c".toList⟩], []⟩
    Usage.compile "[<a>] x [b c]".toList false = .ok (.sequence {} children) ∧
      ∃ shares, Divides line 0 4 children shares ∧ TakesInOrder line.flags children shares := by
  intro children line
  have husage : Usage.compile "[<a>] x [b c]".toList false = .ok (.sequence {} children) :=
    eq_ok_of_toOption (by decide +kernel)
  have hcommitted : (Node.sequence {} children, Node.commitmentChoice children false) ∈
      (Node.sequence {} children).committed := by decide
  obtain ⟨-, -, hchoice⟩ := fillsSlots_of_compile husage hcommitted line 0 true {}
  have hattempt : (attempt line (Node.commitmentChoice children false) 0 true {}).1 = .upTo 4 := by
    decide +kernel
  exact ⟨husage, (hchoice 4 _ (Prod.ext hattempt rfl)).resolve_left (by decide)⟩

/-- The first slot may be there without a word, for both its members are optional. The second slot
takes the word then. -/
theorem not_forall_fillsSlots_of_compile :
    ¬ ∀ (usage : Text) (tree : Node), Usage.compile usage false = .ok tree →
      ∀ occ children choice, (.sequence occ children, choice) ∈ tree.committed →
        ∀ earlier slot later, commitAll children = earlier ++ slot :: later → slot.isOpen = true →
          ∀ source line, Line.read (.whole source) = .ok line →
            ∀ token last memory next count after shares,
              let members := earlier.map fill ++ slot :: later.filter (!·.isOpen)
              process line (bundle members) token last none memory = (.reached next count, after) →
                Divides line token next members shares →
                  ∀ taken ∈ earlier.zip shares, taken.1.isOpen = true → taken.2 ≠ [] := by
  intro h
  let group : Node := .sequence ⟨true, false⟩
    [.literal ⟨true, false⟩ "a".toList, .literal ⟨true, false⟩ "b".toList]
  let slot : Node := .literal ⟨true, false⟩ "c".toList
  have husage : Usage.compile "[[a] [b]] [c]".toList false =
      .ok (.sequence ⟨true, false⟩ [group, slot]) := eq_ok_of_toOption (by decide +kernel)
  let line : Parsed := ⟨[⟨0, 1, some "c".toList⟩], []⟩
  have hline : (Line.read (.whole "c".toList)).toOption.map (fun line => (line.words, line.flags)) =
      some (line.words, line.flags) := by decide +kernel
  have hread : Line.read (.whole "c".toList) = .ok line := by
    obtain ⟨⟨words, flags⟩, hfound, heq⟩ := Option.map_eq_some_iff.mp hline
    obtain ⟨rfl, rfl⟩ := Prod.mk.inj heq
    exact eq_ok_of_toOption hfound
  have hmatch :
      (process line (bundle [group.commit.fill, slot]) 0 true none {}).1 = .reached 1 1 := by
    decide +kernel
  have hdivides : Divides line 0 1 [group.commit.fill, slot] [[], [.keyword "c".toList]] := by
    refine ⟨.cons ?_ (.cons ⟨[], .once (.literal _ _)⟩ .nil), ⟨⟨_, rfl, rfl⟩, trivial⟩, rfl⟩
    exact (derives_fill_nil_iff (by decide)).mpr (by decide)
  have hcommitted : (Node.sequence ⟨true, false⟩ [group, slot],
      Node.commitmentChoice [group.commit, slot] true) ∈
        (Node.sequence ⟨true, false⟩ [group, slot]).committed := by decide
  exact h _ _ husage _ _ _ hcommitted [group.commit] slot [] rfl (by decide) _ _ hread 0 true {}
    1 1 _ _ (Prod.ext hmatch rfl) hdivides (group.commit, []) (by decide) (by decide) rfl

end Match

end Synopsis
