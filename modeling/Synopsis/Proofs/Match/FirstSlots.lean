/-
Synopsis.Proofs.Match.FirstSlots — slots that are filled from the left.

A sequence of literals and parameters with several optional ones among them is turned
into a choice between its commitments. This choice fits a line of words just if the words
are taken one by one by the required nodes and the first few optional ones, as many as
there are words for (`parse_commit_leafSequence`). Each commitment leaves one slot open,
so that it fits lines of two lengths, and so each length is met by one or two commitments;
where there are two, they take the words in the same way, and it does not matter which of
them comes first.
-/
import Synopsis.Proofs.Match.Commitment
import Synopsis.Proofs.Match.LeafSequence
import Synopsis.Proofs.Match.Alternatives
import Synopsis.Proofs.Node.Unambiguous

namespace Synopsis

namespace Match

open Line (Parsed)
open Node (fill commitments bundle)

/-! ## §1 Keeping the first slots -/

/-- The nodes that are left if only so many of the optional ones are kept, the first ones. -/
def keepFirst : Nat → List Node → List Node
  | _, [] => []
  | 0, node :: nodes => if node.optional then keepFirst 0 nodes else node :: keepFirst 0 nodes
  | count + 1, node :: nodes =>
    node :: keepFirst (if node.optional then count else count + 1) nodes

section Keep

variable {node : Node} {nodes : List Node}

theorem keepFirst_required (h : node.optional = false) (count : Nat) :
    keepFirst count (node :: nodes) = node :: keepFirst count nodes := by
  cases count <;> simp [keepFirst, h]

theorem keepFirst_optional (h : node.optional = true) (count : Nat) :
    keepFirst (count + 1) (node :: nodes) = node :: keepFirst count nodes := by
  simp [keepFirst, h]

theorem keepFirst_zero (nodes : List Node) : keepFirst 0 nodes = nodes.filter (!·.optional) := by
  induction nodes with
  | nil => rfl
  | cons node nodes ih => cases hoptional : node.optional <;> simp [keepFirst, hoptional, ih]

theorem keepFirst_sublist (count : Nat) (nodes : List Node) :
    (keepFirst count nodes).Sublist nodes := by
  induction nodes generalizing count with
  | nil => simp [keepFirst]
  | cons node nodes ih =>
    cases hoptional : node.optional with
    | false =>
      rw [keepFirst_required hoptional]
      exact (ih count).cons_cons node
    | true =>
      cases count with
      | zero =>
        rw [keepFirst, if_pos hoptional]
        exact (ih 0).cons node
      | succ count =>
        rw [keepFirst_optional hoptional]
        exact (ih count).cons_cons node

/-- All nodes before some place are kept, if enough are. -/
theorem keepFirst_append (front nodes : List Node) (count : Nat) :
    keepFirst (front.countP Node.optional + count) (front ++ nodes) =
      front ++ keepFirst count nodes := by
  induction front with
  | nil => simp
  | cons node front ih =>
    cases hoptional : node.optional with
    | true =>
      rw [List.countP_cons_of_pos hoptional, Nat.add_right_comm, List.cons_append,
        keepFirst_optional hoptional, ih, List.cons_append]
    | false =>
      rw [List.countP_cons_of_neg (by simp [hoptional]), List.cons_append,
        keepFirst_required hoptional, ih, List.cons_append]

theorem length_keepFirst {count : Nat} (h : count ≤ nodes.countP Node.optional) :
    (keepFirst count nodes).length = nodes.countP (!·.optional) + count := by
  induction nodes generalizing count with
  | nil =>
    obtain rfl : count = 0 := by simpa using h
    rfl
  | cons node nodes ih =>
    cases hoptional : node.optional with
    | true =>
      rw [List.countP_cons_of_pos hoptional] at h
      rw [List.countP_cons_of_neg (by simp [hoptional])]
      cases count with
      | zero => rw [keepFirst, if_pos hoptional, ih (Nat.zero_le _)]
      | succ count =>
        rw [keepFirst_optional hoptional, List.length_cons, ih (by omega), Nat.add_assoc]
    | false =>
      rw [List.countP_cons_of_neg (by simp [hoptional])] at h
      rw [List.countP_cons_of_pos (by simp [hoptional]), keepFirst_required hoptional,
        List.length_cons, ih h, Nat.add_right_comm]

end Keep

/-- The optional node with so many optional ones before it. -/
theorem exists_split_optional {count : Nat} {nodes : List Node}
    (h : count < nodes.countP Node.optional) :
    ∃ earlier slot later, nodes = earlier ++ slot :: later ∧ slot.optional = true ∧
      earlier.countP Node.optional = count := by
  induction nodes generalizing count with
  | nil => simp at h
  | cons node nodes ih =>
    cases hoptional : node.optional with
    | true =>
      rw [List.countP_cons_of_pos hoptional] at h
      cases count with
      | zero => exact ⟨[], node, nodes, rfl, hoptional, rfl⟩
      | succ count =>
        obtain ⟨earlier, slot, later, rfl, hslot, rfl⟩ := ih (Nat.lt_of_succ_lt_succ h)
        exact ⟨node :: earlier, slot, later, rfl, hslot, List.countP_cons_of_pos hoptional⟩
    | false =>
      rw [List.countP_cons_of_neg (by simp [hoptional])] at h
      obtain ⟨earlier, slot, later, rfl, hslot, rfl⟩ := ih h
      exact ⟨node :: earlier, slot, later, rfl, hslot,
        List.countP_cons_of_neg (by simp [hoptional])⟩

/-! ## §2 Words that are taken one by one -/

def Takes (node : Node) (reading : Reading) : Prop :=
  ∃ text, takes node text = true ∧ reading = readingOf node text

/-- Literals and parameters are read as they take words. -/
theorem forall₂_takes_iff {nodes : List Node} (hnodes : ∀ node ∈ nodes, takesWord node = true)
    {readings : List Reading} {words : List Text} :
    List.Forall₂ Takes nodes readings ∧ readings.map Reading.word = words ↔
      List.Forall₂ (fun node word => takes node word = true) nodes words ∧
        readings = List.zipWith readingOf nodes words := by
  induction nodes generalizing readings words with
  | nil =>
    constructor
    · rintro ⟨h, rfl⟩
      cases h
      exact ⟨.nil, rfl⟩
    · rintro ⟨h, rfl⟩
      cases h
      exact ⟨.nil, rfl⟩
  | cons node nodes ih =>
    have ih {readings words} :=
      @ih (fun other hother => hnodes other (by simp [hother])) readings words
    have hword := word_readingOf (hnodes node (by simp))
    constructor
    · rintro ⟨h, rfl⟩
      cases h with
      | @cons _ reading _ readings hnode hrest =>
        obtain ⟨text, htakes, rfl⟩ := hnode
        obtain ⟨hrest, heq⟩ := ih.mp ⟨hrest, rfl⟩
        rw [List.map_cons, hword]
        exact ⟨.cons htakes hrest, by rw [List.zipWith_cons_cons, ← heq]⟩
    · rintro ⟨h, rfl⟩
      cases h with
      | @cons _ word _ words hnode hrest =>
        obtain ⟨hrest, heq⟩ := ih.mpr ⟨hrest, rfl⟩
        rw [List.zipWith_cons_cons, List.map_cons, hword, heq]
        exact ⟨.cons ⟨word, hnode, rfl⟩ hrest, rfl⟩

def TakesOne (node : Node) : Prop := takesWord node = true ∧ node.repeating = false

section Leaf

variable {flags : FlagTable} {node : Node} {readings : List Reading} {keys : List Text}

@[simp] theorem takes_fill {reading : Reading} : Takes node.fill reading ↔ Takes node reading := by
  unfold Node.fill
  split
  · cases node <;> rfl
  · rfl

theorem isOpen_of_takesWord (h : takesWord node = true) : node.isOpen = node.optional := by
  rw [Node.isOpen, positional_of_takesWord h, Bool.and_true]

/-- Filling a literal or a parameter makes it required, if it is not already. -/
theorem fill_of_takesWord (h : takesWord node = true) : node.fill = node.setOptional false := by
  rw [fill, isOpen_of_takesWord h]
  split
  · rfl
  · rename_i hrequired
    have hocc : ({ node.occ with optional := false } : Occurrence) = node.occ := by
      rw [← Bool.eq_false_iff.mpr hrequired]
      rfl
    rw [Node.setOptional, hocc, Node.withOcc_occ]

theorem TakesOne.fill (h : TakesOne node) :
    TakesOne node.fill ∧ node.fill.optional = false := by
  rw [fill_of_takesWord h.1]
  cases node with
  | literal => exact ⟨h, rfl⟩
  | parameter => exact ⟨h, rfl⟩
  | _ => cases h.1

/-- What is derived of a literal or a parameter that is not repeated is one word, or nothing if it
is optional. -/
theorem TakesOne.cases_of_derives (h : TakesOne node) (hderives : Derives flags node readings keys) :
    (∃ reading, readings = [reading] ∧ Takes node reading) ∨
      (readings = [] ∧ node.optional = true) := by
  cases hderives with
  | once hoccurs =>
    refine .inl ?_
    cases hoccurs with
    | literal occ name => exact ⟨_, rfl, name, by simp [takes], rfl⟩
    | parameter occ name word => exact ⟨_, rfl, word, rfl, rfl⟩
    | _ => cases h.1
  | again hrepeating => rw [h.2] at hrepeating; cases hrepeating
  | absent habsent => exact .inr ⟨rfl, habsent.1⟩

end Leaf

/-! ## §3 What commitments derive -/

section Commitment

variable {flags : FlagTable} {nodes children committed : List Node} {readings : List Reading}
  {keys : List Text}

/-- Required nodes take the words one by one. -/
theorem forall₂_takes_of_derivesAll
    (hnodes : ∀ node ∈ nodes, TakesOne node ∧ node.optional = false)
    (h : DerivesAll flags nodes readings keys) : List.Forall₂ Takes nodes readings := by
  induction nodes generalizing readings keys with
  | nil =>
    cases h
    exact .nil
  | cons node nodes ih =>
    cases h with
    | cons hnode hrest =>
      have hrest := ih (fun other hother => hnodes other (by simp [hother])) hrest
      obtain ⟨hone, hrequired⟩ := hnodes node (by simp)
      rcases hone.cases_of_derives hnode with ⟨reading, rfl, htakes⟩ | ⟨-, hoptional⟩
      · exact .cons htakes hrest
      · rw [hrequired] at hoptional
        cases hoptional

theorem assigns_of_forall₂_takes (hnodes : ∀ node ∈ nodes, TakesOne node)
    (h : List.Forall₂ Takes nodes readings) :
    Assigns flags nodes (nodes.map fun _ => 1) readings := by
  induction h with
  | nil => exact .nil
  | @cons node reading nodes readings hnode _ ih =>
    obtain ⟨text, htakes, rfl⟩ := hnode
    have hoccurs : Occurs flags node [readingOf node text] [] :=
      (occurs_iff_of_takesWord (hnodes node (by simp)).1).mpr ⟨text, htakes, rfl⟩
    exact .cons ⟨by omega, by omega⟩ (times_one_iff.mpr hoccurs)
      (ih fun other hother => hnodes other (by simp [hother]))

/-- Among literals and parameters the required ones are those that are not open. -/
theorem filter_isOpen_eq (h : ∀ node ∈ nodes, TakesOne node) :
    nodes.filter (!·.isOpen) = nodes.filter (!·.optional) :=
  List.filter_congr fun node hnode => by rw [isOpen_of_takesWord (h node hnode).1]

/-- The nodes before a slot and the required ones behind it are left if the slot is the first one
that is not kept. -/
theorem keepFirst_without {earlier later : List Node} {slot : Node} (hslot : slot.optional = true) :
    keepFirst (earlier.countP Node.optional) (earlier ++ slot :: later) =
      earlier ++ later.filter (!·.optional) := by
  have happend := keepFirst_append earlier (slot :: later) 0
  rw [Nat.add_zero] at happend
  rw [happend, keepFirst, if_pos hslot, keepFirst_zero]

/-- If it is the last one that is kept, it is left as well. -/
theorem keepFirst_with {earlier later : List Node} {slot : Node} (hslot : slot.optional = true) :
    keepFirst (earlier.countP Node.optional + 1) (earlier ++ slot :: later) =
      earlier ++ slot :: later.filter (!·.optional) := by
  rw [keepFirst_append, keepFirst_optional hslot, keepFirst_zero]

/-- The words of a commitment are taken by the nodes that are left of the children if the slots
before the open one are kept, and this one if it takes a word. -/
theorem forall₂_takes_of_commitment (hchildren : ∀ child ∈ children, TakesOne child)
    (hmem : committed ∈ commitments [] children)
    (h : DerivesAll flags committed readings keys) :
    ∃ count, count ≤ children.countP Node.optional ∧
      List.Forall₂ Takes (keepFirst count children) readings := by
  obtain ⟨earlier, slot, later, rfl, hopen, rfl⟩ := Node.mem_commitments_iff.mp hmem
  have hslot := (Node.isOpen_iff.mp hopen).1
  have hcount : (earlier ++ slot :: later).countP Node.optional =
      earlier.countP Node.optional + 1 + later.countP Node.optional := by
    rw [List.countP_append, List.countP_cons_of_pos hslot]
    omega
  rw [List.nil_append, filter_isOpen_eq fun node hnode => hchildren node (by simp [hnode])] at h
  obtain ⟨r, _, r', _, rfl, -, hearlier, hrest⟩ := derivesAll_append_iff.mp h
  have hearlier : List.Forall₂ Takes earlier r := by
    have hfilled : ∀ node ∈ earlier.map fill, TakesOne node ∧ node.optional = false := by
      intro node hnode
      obtain ⟨child, hchild, rfl⟩ := List.mem_map.mp hnode
      exact (hchildren child (by simp [hchild])).fill
    simpa using forall₂_takes_of_derivesAll hfilled hearlier
  cases hrest with
  | cons hslotDerives hlater =>
    have hlater := forall₂_takes_of_derivesAll (fun node hnode => ?_) hlater
    · rcases (hchildren slot (by simp)).cases_of_derives hslotDerives with
        ⟨reading, rfl, htakes⟩ | ⟨rfl, -⟩
      · refine ⟨earlier.countP Node.optional + 1, by omega, ?_⟩
        rw [keepFirst_with hslot]
        exact List.rel_append hearlier (.cons htakes hlater)
      · refine ⟨earlier.countP Node.optional, by omega, ?_⟩
        rw [keepFirst_without hslot]
        exact List.rel_append hearlier hlater
    · obtain ⟨hmem, hrequired⟩ := List.mem_filter.mp hnode
      exact ⟨hchildren node (by simp [hmem]), by simpa using hrequired⟩

/-- What is taken by some nodes and others behind them is assigned to the nodes once they are filled
and to whatever the words of the others are assigned to. -/
theorem exists_assigns_fill {earlier later rest : List Node}
    (hearlier : ∀ node ∈ earlier, TakesOne node)
    (hrest : ∀ readings, List.Forall₂ Takes later readings →
      ∃ counts, Assigns flags rest counts readings)
    (h : List.Forall₂ Takes (earlier ++ later) readings) :
    ∃ counts, Assigns flags (earlier.map fill ++ rest) counts readings := by
  induction earlier generalizing readings with
  | nil => exact hrest readings h
  | cons node earlier ih =>
    cases h with
    | @cons _ reading _ readings hnode hreadings =>
      obtain ⟨counts, hcounts⟩ :=
        ih (fun other hother => hearlier other (by simp [hother])) hreadings
      obtain ⟨text, htakes, rfl⟩ := takes_fill.mpr hnode
      have hoccurs : Occurs flags node.fill [readingOf node.fill text] [] :=
        (occurs_iff_of_takesWord (hearlier node (by simp)).fill.1.1).mpr ⟨text, htakes, rfl⟩
      exact ⟨_, .cons ⟨by omega, by omega⟩ (times_one_iff.mpr hoccurs) hcounts⟩

/-- Words that are taken by the nodes that are left if so many slots are kept are assigned to the
children of some commitment: the one that leaves open the first slot that is not kept, or the last
slot if all are. -/
theorem exists_commitment {count : Nat} (hchildren : ∀ child ∈ children, TakesOne child)
    (hsome : 0 < children.countP Node.optional) (hcount : count ≤ children.countP Node.optional)
    (h : List.Forall₂ Takes (keepFirst count children) readings) :
    ∃ committed ∈ commitments [] children, ∃ counts, Assigns flags committed counts readings := by
  have hmem {earlier later : List Node} {slot : Node} (hslot : slot.optional = true)
      (hsplit : children = earlier ++ slot :: later) :
      earlier.map fill ++ slot :: later.filter (!·.optional) ∈ commitments [] children := by
    subst hsplit
    rw [← filter_isOpen_eq fun node hnode => hchildren node (by simp [hnode])]
    have hopen := (isOpen_of_takesWord (hchildren slot (by simp)).1).trans hslot
    exact Node.mem_commitments_iff.mpr ⟨earlier, slot, later, rfl, hopen, rfl⟩
  by_cases hlt : count < children.countP Node.optional
  · obtain ⟨earlier, slot, later, hsplit, hslot, rfl⟩ := exists_split_optional hlt
    refine ⟨_, hmem hslot hsplit, ?_⟩
    rw [hsplit, keepFirst_without hslot] at h
    subst hsplit
    refine exists_assigns_fill (fun node hnode => hchildren node (by simp [hnode]))
      (fun readings hreadings => ?_) h
    have hlater : Assigns flags (later.filter (!·.optional)) _ readings := assigns_of_forall₂_takes
      (fun node hnode => hchildren node (by simp [(List.mem_filter.mp hnode).1])) hreadings
    exact ⟨_, .cons ⟨fun _ => hslot, by omega⟩ .zero hlater⟩
  · obtain ⟨earlier, slot, later, hsplit, hslot, hearlier⟩ :=
      exists_split_optional (Nat.sub_lt hsome Nat.one_pos)
    obtain rfl : count = earlier.countP Node.optional + 1 := by omega
    refine ⟨_, hmem hslot hsplit, ?_⟩
    rw [hsplit, keepFirst_with hslot] at h
    subst hsplit
    refine exists_assigns_fill (fun node hnode => hchildren node (by simp [hnode]))
      (fun readings hreadings => ⟨_, assigns_of_forall₂_takes (fun node hnode => ?_) hreadings⟩) h
    rcases List.mem_cons.mp hnode with rfl | hnode
    · exact hchildren node (by simp)
    · exact hchildren node (by simp [(List.mem_filter.mp hnode).1])

end Commitment

/-! ## §4 Lines that the root matches -/

section Root

variable {line : Parsed} {source : Text} {tree : Node} {words : List Text}

/-- Without flags a line fits if the root is matched. -/
theorem judge_eq_fits_iff (hflags : line.flags = []) :
    (∃ bindings, judge tree line = .ok (.fits bindings)) ↔
      ∃ next count after, process line tree 0 true none {} = (.reached next count, after) := by
  unfold judge
  generalize process line tree 0 true none {} = found
  obtain ⟨progress, after⟩ := found
  cases progress with
  | failed => simp
  | fault fault => simp
  | reached next count =>
    have hfits : verdictOf line after.trail = .fits ⟨after.trail.captures ++ line.flags⟩ :=
      verdictOf_eq_fits_iff.mpr ⟨by simp [hflags, FlagTable.keys], rfl⟩
    simp [hfits]

/-- If none of the slots ends in a fault, the first that is matched is taken, or none is. -/
theorem firstOf_cases {slots : List Slot} (hlawful : ∀ slot ∈ slots, slot.Lawful)
    {total token : Nat} {last : Bool} {memory : Memory}
    (hfault : ∀ slot ∈ slots, ∀ fault,
      (slot.process total token last none memory).1 ≠ .fault fault) :
    (∃ next after, firstOf total token last memory slots = (.upTo next, after)) ∨
      (firstOf total token last memory slots = (.refused, memory) ∧
        ∀ slot ∈ slots, (slot.process total token last none memory).1 = .failed) := by
  induction slots with
  | nil => exact .inr ⟨rfl, by simp⟩
  | cons slot slots ih =>
    have ih := ih (fun other hother => hlawful other (by simp [hother]))
      fun other hother => hfault other (by simp [hother])
    rw [firstOf]
    cases hprocess : slot.process total token last none memory with
    | mk progress after =>
      cases progress with
      | reached next count => exact .inl ⟨next, after, rfl⟩
      | fault fault => exact absurd (congrArg Prod.fst hprocess) (hfault slot (by simp) fault)
      | failed =>
        simp only [Slot.cutTo_process (hlawful slot (by simp)) hprocess]
        refine ih.imp_right fun h => ⟨h.1, ?_⟩
        intro other hother
        rcases List.mem_cons.mp hother with rfl | hother
        · rw [hprocess]
        · exact h.2 other hother

/-- A choice at the root fits a line without flags if an alternative does, and ends in a fault only
if an alternative does. -/
theorem judge_choice {occ : Occurrence} {alternatives : List Node} (hflags : line.flags = [])
    (hrepeating : occ.repeating = false)
    (hfault : ∀ node ∈ alternatives, ∃ verdict, judge node line = .ok verdict) :
    (∃ verdict, judge (.choice occ alternatives) line = .ok verdict) ∧
      ((∃ node ∈ alternatives, ∃ bindings, judge node line = .ok (.fits bindings)) →
        ∃ bindings, judge (.choice occ alternatives) line = .ok (.fits bindings)) := by
  have hslots : ∀ slot ∈ alternatives.map (slotOf line), ∀ fault,
      (slot.process line.words.length 0 true none {}).1 ≠ .fault fault := by
    intro slot hslot
    obtain ⟨node, hnode, rfl⟩ := List.mem_map.mp hslot
    exact exists_judge_eq_ok_iff.mp (hfault node hnode)
  have honce : (slotOf line (.choice occ alternatives)).occ.repeating = true →
      (slotOf line (.choice occ alternatives)).positional? = some false :=
    fun h => absurd (hrepeating.symm.trans h) (by simp)
  have hattempt : (slotOf line (.choice occ alternatives)).attempt 0 true {} =
      firstOf line.words.length 0 true {} (alternatives.map (slotOf line)) :=
    attempt_choice line occ ..
  rw [exists_judge_eq_ok_iff, judge_eq_fits_iff hflags]
  unfold process
  rw [Slot.process_once honce, Slot.once, hattempt]
  rcases firstOf_cases (lawful_map_slotOf line alternatives) hslots with
    ⟨next, after, hfirst⟩ | ⟨hfirst, hnone⟩
  · have hsettle : (slotOf line (.choice occ alternatives)).settle line.words.length true
        (.reached next 1) = .reached next 1 :=
      Slot.settle_eq_reached_iff.mpr ⟨rfl, by simp, fun _ => le_of_firstOf hfirst rfl⟩
    simp only [hfirst, hsettle]
    exact ⟨by simp, fun _ => ⟨next, 1, after, rfl⟩⟩
  · rw [hfirst]
    constructor
    · intro fault
      simp only [Slot.settle]
      split
      · simp
      · split <;> simp
    · rintro ⟨node, hnode, hfits⟩
      obtain ⟨next, count, after, hprocess⟩ := (judge_eq_fits_iff hflags).mp hfits
      have hfailed := hnone _ (List.mem_map_of_mem hnode)
      rw [show (slotOf line node).process _ 0 true none {} = _ from hprocess] at hfailed
      cases hfailed

/-- A literal or parameter at the root is matched as often as it occurs. It never ends in a fault, and
it fits a line without flags if the words can be assigned to it. -/
theorem judge_of_takesWord {node : Node} (hnode : takesWord node = true) (hflags : line.flags = [])
    (htexts : line.texts? = some words) :
    (∃ verdict, judge node line = .ok verdict) ∧
      ∀ counts readings, Covers line.flags [node] words counts readings →
        ∃ bindings, judge node line = .ok (.fits bindings) := by
  have hrigid := rigid_of_takesWord hnode fun word => isSome_text_of_texts? htexts
  obtain ⟨count, readings, hmost, hcomes⟩ := hrigid.comes (Nat.zero_le _) true {}
  rw [exists_judge_eq_ok_iff, judge_eq_fits_iff hflags]
  rcases hcomes with ⟨-, -, hprocess⟩ | ⟨hfails, hfailed⟩
  · rw [hprocess]
    exact ⟨by simp, fun _ _ _ => ⟨_, _, _, rfl⟩⟩
  · refine ⟨by simp [hfailed], ?_⟩
    rintro counts readings' ⟨hassigns, hspelled⟩
    obtain ⟨hspells, hlength⟩ := (map_word_eq_iff htexts).mp hspelled
    cases hassigns with
    | @cons _ _ count' _ front behind hallows htimes hrest =>
      cases hrest
      rw [List.append_nil] at hspells hlength
      have hle := hmost.count_le hallows htimes hspells
      have hfront := length_of_times hnode htimes
      have hreadings := length_of_times hnode hmost.times
      exact absurd ⟨fun hzero => hallows.optional_of_zero (by omega), fun _ => by omega⟩ hfails

/-- Literals and parameters leave no flag of a line without flags over. -/
theorem flagsFit_of_takesWord {nodes : List Node} (hnodes : ∀ node ∈ nodes, takesWord node = true)
    (hflags : line.flags = []) : FlagsFit nodes line.flags := by
  have hkey {node : Node} (hnode : node ∈ nodes) : flagKey? node = none :=
    flagKey?_eq_none (positional?_of_takesWord (hnodes node hnode))
  constructor
  case given =>
    intro node key hnode h
    rw [hkey hnode] at h
    cases h
  case named =>
    intro key hgiven
    rw [hflags] at hgiven
    cases hgiven
  case accepted =>
    intro node key value hnode h
    rw [hkey hnode] at h
    cases h

/-- A sequence of literals and parameters at the root never ends in a fault, and it fits a line
without flags if the words can be assigned to it. -/
theorem judge_sequenceOf_of_takesWord {nodes : List Node}
    (hnodes : ∀ node ∈ nodes, takesWord node = true) (hread : Line.read (.whole source) = .ok line)
    (hflags : line.flags = []) (htexts : line.texts? = some words) :
    (∃ verdict, judge (Node.sequenceOf nodes false) line = .ok verdict) ∧
      ∀ counts readings, Covers line.flags nodes words counts readings →
        ∃ bindings, judge (Node.sequenceOf nodes false) line = .ok (.fits bindings) := by
  have hleaves : ∀ node ∈ nodes, IsLeaf node := fun node hnode => .inl (hnodes node hnode)
  have hwords : ∀ word ∈ line.words, word.text.isSome = true :=
    fun word => isSome_text_of_texts? htexts
  have hpositional : nodes.filter Node.positional = nodes :=
    List.filter_eq_self.mpr fun node hnode => positional_of_takesWord (hnodes node hnode)
  have hfit := flagsFit_of_takesWord hnodes hflags
  rcases cases_of_parse (fun node hnode => plain_of_isLeaf (hleaves node hnode) hwords) hread with
    ⟨-, _, _, -, -, hparse⟩ | ⟨hparse, hover⟩
  · obtain ⟨verdict, hjudge, hverdict⟩ := (parse_eq_ok_iff hread).mp hparse
    refine ⟨⟨verdict, hjudge⟩, ?_⟩
    intro _ _ _
    cases verdict with
    | fits bindings => exact ⟨bindings, hjudge⟩
    | mismatch => cases hverdict
    | strayFlag key => cases hverdict
  · obtain ⟨verdict, hjudge, -⟩ := (parse_eq_ok_iff hread).mp hparse
    refine ⟨⟨verdict, hjudge⟩, ?_⟩
    -- an assignment to all words is accepted, and then none that leaves words over is greatest
    rintro counts readings ⟨hassigns, hspelled⟩
    obtain ⟨hspells, hlength⟩ := (map_word_eq_iff htexts).mp hspelled
    rw [← hpositional] at hassigns
    rcases hover hfit with hnone | ⟨_, _, hgreatest, hlt⟩
    · exact absurd (accepted_of_assigns hassigns hspells (by omega)) (hnone counts readings)
    · exact absurd (by omega)
        (ne_length_of_greatest hleaves hgreatest (by omega) (Nat.le_refl 0) hassigns hspells)

/-- The same for a bundle, which is a sequence if there are several nodes. -/
theorem judge_bundle {nodes : List Node} (hnodes : ∀ node ∈ nodes, takesWord node = true)
    (hread : Line.read (.whole source) = .ok line) (hflags : line.flags = [])
    (htexts : line.texts? = some words) :
    (∃ verdict, judge (bundle nodes) line = .ok verdict) ∧
      ∀ counts readings, Covers line.flags nodes words counts readings →
        ∃ bindings, judge (bundle nodes) line = .ok (.fits bindings) := by
  unfold bundle
  split
  · exact judge_of_takesWord (hnodes _ (by simp)) hflags htexts
  · exact judge_sequenceOf_of_takesWord hnodes hread hflags htexts

end Root

/-! ## §5 Lines that the choice between the commitments matches -/

section Lines

variable {children : List Node}

theorem commit_of_takesWord {node : Node} (h : takesWord node = true) : node.commit = node := by
  cases node with
  | literal => rfl
  | parameter => rfl
  | _ => cases h

/-- A sequence of literals and parameters of which several are optional becomes a choice between its
commitments, which may be left out if all of them are optional. -/
theorem commit_leafSequence (hchildren : ∀ child ∈ children, TakesOne child)
    (hslots : 2 ≤ children.countP Node.optional) :
    ∃ optional, (optional = true → ∀ child ∈ children, child.optional = true) ∧
      (Node.sequenceOf children false).commit =
        .choice ⟨optional, false⟩ ((commitments [] children).map bundle) := by
  have hself := Node.commitAll_eq_self fun child hchild =>
    commit_of_takesWord (hchildren child hchild).1
  have hfilled : ∀ child ∈ children, child.isEmpty = false := by
    intro child hchild
    have hword := (hchildren child hchild).1
    cases child with
    | empty => cases hword
    | _ => rfl
  have hcount : children.countP Node.isOpen = children.countP Node.optional :=
    List.countP_congr fun child hchild => by rw [isOpen_of_takesWord (hchildren child hchild).1]
  have hambiguous : Node.isAmbiguous children = true := by
    simp only [Node.isAmbiguous, hcount, decide_eq_true_eq]
    omega
  refine ⟨children.all Node.optional || (commitments [] children).any
    fun committed => committed.all Node.optional, fun hoptional => ?_, ?_⟩
  · rcases Bool.or_eq_true_iff.mp hoptional with hall | hany
    · exact List.all_eq_true.mp hall
    · obtain ⟨committed, hcommitted, hall⟩ := List.any_eq_true.mp hany
      exact List.all_eq_true.mp (Node.all_optional_of_commitment hcommitted hall)
  · rw [Node.sequenceOf, Node.commit, hself, if_pos hambiguous, Node.commitmentChoice_eq hfilled]
    rfl

/-- Filling makes no other kind of node of a literal or parameter. -/
theorem takesWord_of_mem_commitment (hchildren : ∀ child ∈ children, TakesOne child)
    {committed : List Node} (h : committed ∈ commitments [] children) :
    ∀ node ∈ committed, takesWord node = true := by
  refine fun node hnode => (Node.of_mem_commitment (P := TakesOne) ?_ hchildren h node hnode).1
  exact fun child hchild => hchild.fill.1

variable {line : Parsed} {source : Text} {words : List Text} {optional : Bool}

/-- A line that fits is taken word by word by the nodes that are left if so many slots are kept. -/
theorem takes_of_judge (hchildren : ∀ child ∈ children, TakesOne child)
    (hoptional : optional = true → ∀ child ∈ children, child.optional = true)
    (htexts : line.texts? = some words) (hflags : line.flags = []) {bindings : Bindings}
    (h : judge (.choice ⟨optional, false⟩ ((commitments [] children).map bundle)) line =
      .ok (.fits bindings)) :
    ∃ count readings, count ≤ children.countP Node.optional ∧
      List.Forall₂ Takes (keepFirst count children) readings ∧
      readings.map Reading.word = words ∧ bindings.captures = Reading.captures 0 readings := by
  obtain ⟨_, htexts', readings, keys, hderives, rfl, -, hcaptures⟩ := derivesLine_of_judge h
  cases htexts.symm.trans htexts'
  rw [hflags, List.append_nil] at hcaptures
  -- where everything is absent, no node is required
  have hnothing (hnil : readings = []) (hall : ∀ child ∈ children, child.optional = true) :
      ∃ count, count ≤ children.countP Node.optional ∧
        List.Forall₂ Takes (keepFirst count children) readings := by
    refine ⟨0, Nat.zero_le _, ?_⟩
    have hkept : keepFirst 0 children = [] := by
      rw [keepFirst_zero, List.filter_eq_nil_iff]
      exact fun child hchild => by simp [hall child hchild]
    rw [hkept, hnil]
    exact .nil
  have htaken : ∃ count, count ≤ children.countP Node.optional ∧
      List.Forall₂ Takes (keepFirst count children) readings := by
    cases hderives with
    | once hoccurs =>
      cases hoccurs with
      | choice hmem halternative =>
        obtain ⟨committed, hcommitted, rfl⟩ := List.mem_map.mp hmem
        rcases derivesAll_of_bundle halternative with hall | ⟨hnil, -, hall⟩
        · exact forall₂_takes_of_commitment hchildren hcommitted hall
        · exact hnothing hnil
            (List.all_eq_true.mp (Node.all_optional_of_commitment hcommitted hall))
    | again hrepeating => cases hrepeating
    | absent habsent => exact hnothing rfl (hoptional habsent.1)
  obtain ⟨count, hcount, htaken⟩ := htaken
  exact ⟨count, readings, hcount, htaken, rfl, hcaptures⟩

/-- There is a verdict on every line, and a line fits whose words are taken by the nodes that are left
if so many slots are kept. -/
theorem judge_of_takes (optional : Bool) (hchildren : ∀ child ∈ children, TakesOne child)
    (hsome : 0 < children.countP Node.optional) (hread : Line.read (.whole source) = .ok line)
    (hflags : line.flags = []) (htexts : line.texts? = some words) :
    ∃ verdict,
      judge (.choice ⟨optional, false⟩ ((commitments [] children).map bundle)) line = .ok verdict ∧
      ∀ count readings, count ≤ children.countP Node.optional →
        List.Forall₂ Takes (keepFirst count children) readings →
        readings.map Reading.word = words → ∃ bindings, verdict = .fits bindings := by
  have hbundle {committed : List Node} (h : committed ∈ commitments [] children) :=
    judge_bundle (takesWord_of_mem_commitment hchildren h) hread hflags htexts
  have hfault : ∀ node ∈ (commitments [] children).map bundle,
      ∃ verdict, judge node line = .ok verdict :=
    List.forall_mem_map.mpr fun committed h => (hbundle h).1
  obtain ⟨⟨verdict, hverdict⟩, hfits⟩ := @judge_choice line ⟨optional, false⟩ _ hflags rfl hfault
  refine ⟨verdict, hverdict, ?_⟩
  intro count readings hcount htaken hspelled
  obtain ⟨committed, hcommitted, counts, hassigns⟩ :
      ∃ committed ∈ commitments [] children, ∃ counts, Assigns line.flags committed counts readings :=
    exists_commitment hchildren hsome hcount htaken
  obtain ⟨bindings, hjudge⟩ := hfits ⟨_, List.mem_map_of_mem hcommitted,
    (hbundle hcommitted).2 counts readings ⟨hassigns, hspelled⟩⟩
  exact ⟨bindings, Except.ok.inj (hverdict.symm.trans hjudge)⟩

theorem keepFirst_literals (count : Nat) (names : List Text) :
    keepFirst count (names.map (Node.literal ⟨true, false⟩)) =
      (names.take count).map (Node.literal ⟨true, false⟩) := by
  induction names generalizing count with
  | nil => simp [keepFirst]
  | cons name names ih =>
    cases count with
    | zero => simpa [keepFirst, Node.optional, Node.occ] using ih 0
    | succ count => simp [keepFirst, Node.optional, Node.occ, ih]

theorem forall₂_takes_literals {occ : Occurrence} {names : List Text} :
    List.Forall₂ (fun node word => takes node word = true) (names.map (Node.literal occ)) words ↔
      words = names := by
  induction names generalizing words with
  | nil => simp
  | cons name names ih =>
    cases words with
    | nil => simp
    | cons word words => rw [List.map_cons, List.forall₂_cons, ih]; simp [takes]

/-- Literals all of which are optional take one by one the words that their texts begin with. -/
theorem exists_takes_literals_iff {names : List Text} :
    (∃ count, count ≤ (names.map (Node.literal ⟨true, false⟩)).countP Node.optional ∧
        words.length = (names.map (Node.literal ⟨true, false⟩)).countP (!·.optional) + count ∧
        List.Forall₂ (fun node word => takes node word = true)
          (keepFirst count (names.map (Node.literal ⟨true, false⟩))) words) ↔
      words <+: names := by
  have hoptional : (names.map (Node.literal ⟨true, false⟩)).countP Node.optional = names.length := by
    simp [List.countP_map, List.countP_eq_length, Node.optional, Node.occ]
  have hrequired : (names.map (Node.literal ⟨true, false⟩)).countP (!·.optional) = 0 := by
    simp [Node.optional, Node.occ]
  simp only [hoptional, hrequired, keepFirst_literals, forall₂_takes_literals, Nat.zero_add]
  constructor
  · rintro ⟨count, -, -, rfl⟩
    exact List.take_prefix count names
  · intro hbegins
    exact ⟨words.length, hbegins.length_le, rfl, List.prefix_iff_eq_take.mp hbegins⟩

/-- **Slots are filled from the left.** If a sequence of literals and parameters, several of them
optional, is turned into a choice between its commitments, a line of words fits just if the words
are taken one by one by the required nodes and the first of the optional ones, as many as there are
more words than required nodes. What is captured is what these nodes take. If all nodes are optional
literals, these are the lines that begin as their texts do. -/
theorem parse_commit_leafSequence
    (hchildren : ∀ child ∈ children, TakesOne child)
    (hslots : 2 ≤ children.countP Node.optional)
    (hread : Line.read (.whole source) = .ok line) (hflags : line.flags = []) :
    ∃ words found, line.texts? = some words ∧
      parse (Node.sequenceOf children false).commit source = .ok found ∧
      (found.isSome = true ↔ ∃ count, count ≤ children.countP Node.optional ∧
        words.length = children.countP (!·.optional) + count ∧
        List.Forall₂ (fun node word => takes node word = true) (keepFirst count children) words) ∧
      (∀ bindings count, found = some bindings →
        words.length = children.countP (!·.optional) + count →
          bindings.captures =
            Reading.captures 0 (List.zipWith readingOf (keepFirst count children) words)) ∧
      ∀ names, children = names.map (Node.literal ⟨true, false⟩) →
        (found.isSome = true ↔ words <+: names) := by
  obtain ⟨words, htexts⟩ := Line.texts?_of_read_whole hread
  obtain ⟨optional, hoptional, hcommit⟩ := commit_leafSequence hchildren hslots
  obtain ⟨verdict, hverdict, hfits⟩ := judge_of_takes optional hchildren (by omega) hread hflags
    htexts
  have hkept (count : Nat) : ∀ node ∈ keepFirst count children, takesWord node = true :=
    fun node hnode => (hchildren node ((keepFirst_sublist count children).subset hnode)).1
  have hsound {bindings : Bindings} (h : verdict = .fits bindings) :
      ∃ count, count ≤ children.countP Node.optional ∧
        words.length = children.countP (!·.optional) + count ∧
        List.Forall₂ (fun node word => takes node word = true) (keepFirst count children) words ∧
        bindings.captures =
          Reading.captures 0 (List.zipWith readingOf (keepFirst count children) words) := by
    obtain ⟨count, readings, hcount, htaken, hwords, hcaptures⟩ :=
      takes_of_judge hchildren hoptional htexts hflags (h ▸ hverdict)
    obtain ⟨hone, heq⟩ := (forall₂_takes_iff (hkept count)).mp ⟨htaken, hwords⟩
    rw [heq] at hcaptures
    exact ⟨count, hcount, by rw [← hone.length_eq, length_keepFirst hcount], hone, hcaptures⟩
  have hiff : verdict.bindings?.isSome = true ↔ ∃ count, count ≤ children.countP Node.optional ∧
      words.length = children.countP (!·.optional) + count ∧
      List.Forall₂ (fun node word => takes node word = true) (keepFirst count children) words := by
    constructor
    · intro hsome
      obtain ⟨bindings, hbindings⟩ := Option.isSome_iff_exists.mp hsome
      obtain ⟨count, hcount, hlength, htaken, -⟩ := hsound (bindings?_eq_some_iff.mp hbindings)
      exact ⟨count, hcount, hlength, htaken⟩
    · rintro ⟨count, hcount, -, hone⟩
      obtain ⟨htaken, hwords⟩ := (forall₂_takes_iff (hkept count)).mpr ⟨hone, rfl⟩
      obtain ⟨bindings, rfl⟩ := hfits count _ hcount htaken hwords
      rfl
  rw [hcommit]
  refine ⟨words, verdict.bindings?, htexts, (parse_eq_ok_iff hread).mpr ⟨verdict, hverdict, rfl⟩,
    hiff, fun bindings count hbindings hlength => ?_, fun names hnames => ?_⟩
  · obtain ⟨count', -, hlength', -, hcaptures⟩ := hsound (bindings?_eq_some_iff.mp hbindings)
    obtain rfl : count = count' := by omega
    exact hcaptures
  · subst hnames
    exact hiff.trans exists_takes_literals_iff

/-- Two of three slots are filled, with a word between them that has to be there. -/
theorem parse_commit_leafSequence_three_words :
    let children : List Node := [.parameter ⟨true, false⟩ "n".toList, .literal {} "x".toList,
      .literal ⟨true, false⟩ "b".toList, .parameter ⟨true, false⟩ "m".toList]
    ∃ line, Line.read (.whole "1 x b".toList) = .ok line ∧ line.flags = [] ∧
      ∃ bindings, parse (Node.sequenceOf children false).commit "1 x b".toList =
          .ok (some bindings) ∧
        bindings.captures = Reading.captures 0 (List.zipWith readingOf (keepFirst 2 children)
          ["1".toList, "x".toList, "b".toList]) := by
  intro children
  obtain ⟨line, hread, hflags, htexts⟩ :=
    @read_of_toOption ["1".toList, "x".toList, "b".toList] "1 x b".toList [] (by decide +kernel)
  have hchildren : ∀ child ∈ children, TakesOne child := by
    simp [children, TakesOne, takesWord, Node.repeating, Node.occ]
  obtain ⟨words, found, htexts', hparse, hiff, hcaptures, -⟩ :=
    parse_commit_leafSequence hchildren (by decide) hread hflags
  cases htexts.symm.trans htexts'
  obtain ⟨bindings, rfl⟩ := Option.isSome_iff_exists.mp
    (hiff.mpr ⟨2, by decide, rfl, .cons rfl (.cons rfl (.cons rfl .nil))⟩)
  exact ⟨line, hread, hflags, bindings, hparse, hcaptures bindings 2 rfl rfl⟩

end Lines

end Match

end Synopsis
