/-
Synopsis.Proofs.Match.OptionalGroups — sequences with optional groups.

On a sequence of words and groups of words, any of which may be optional, the search
does not always find a match that exists (`not_forall_parse_of_covers`). When the last
child is optional, the search stops at the first way in which the other children match
the beginning of the line: if the last child cannot take the words that are left, it
is left out with these words over, and no earlier decision is taken back.

`parse_optionalGroups` says when a match is found. It has to cover the words, and if
the last child is optional, no greater assignment of the other children may match a
beginning of the line.
-/
import Synopsis.Proofs.Match.LeafSequence

namespace Synopsis

namespace Match

open Line (Parsed)

/-! ## §1 Groups -/

def IsRequired (node : Node) : Prop := node.optional = false ∧ node.repeating = false

/-- The node is a sequence of two or more literals and parameters, each of which occurs once. -/
def IsGroup (node : Node) : Prop :=
  ∃ occ members, node = .sequence occ members ∧ 2 ≤ members.length ∧
    ∀ member ∈ members, takesWord member = true ∧ IsRequired member

/-- The node is a literal, a parameter or a group, and is not repeated. -/
def IsPiece (node : Node) : Prop :=
  (takesWord node = true ∨ IsGroup node) ∧ node.repeating = false

/-- Two words that have to be there are a group, for instance. -/
theorem isGroup_literals (occ : Occurrence) (name name' : Text) :
    IsGroup (.sequence occ [.literal {} name, .literal {} name']) :=
  ⟨_, _, rfl, Nat.le_refl _,
    by simp [takesWord, IsRequired, Node.optional, Node.repeating, Node.occ]⟩

section Group

variable {line : Parsed} {members : List Node}

theorem occurs_of_derives {flags : FlagTable} {node : Node} (hrequired : IsRequired node)
    {readings : List Reading} {keys : List Text} (h : Derives flags node readings keys) :
    Occurs flags node readings keys := by
  cases h with
  | once hoccurs => exact hoccurs
  | again hrepeating => rw [hrequired.2] at hrepeating; cases hrepeating
  | absent habsent =>
    have := habsent.1
    rw [hrequired.1] at this
    cases this

theorem eq_one_of_allows {node : Node} (hrequired : IsRequired node) {count : Nat}
    (h : Allows node count) : count = 1 := by
  rcases Nat.lt_trichotomy count 1 with hzero | hone | hmore
  · have := h.optional_of_zero (by omega)
    rw [hrequired.1] at this
    cases this
  · exact hone
  · have := h.repeating_of_more hmore
    rw [hrequired.2] at this
    cases this

/-- Required nodes occur once each in every assignment. -/
theorem counts_eq_of_assigns {flags : FlagTable} {counts : List Nat} {readings : List Reading}
    (hmembers : ∀ member ∈ members, IsRequired member)
    (h : Assigns flags members counts readings) : counts = members.map fun _ => 1 := by
  induction h with
  | nil => rfl
  | cons hallows _ _ ih =>
    rw [List.map_cons, eq_one_of_allows (hmembers _ (by simp)) hallows,
      ih fun other hother => hmembers other (by simp [hother])]

/-- Required nodes derive words without flags by occurring once each. -/
theorem derivesAll_iff_assigns {flags : FlagTable} {readings : List Reading}
    (hmembers : ∀ member ∈ members, IsRequired member) :
    DerivesAll flags members readings [] ↔
      Assigns flags members (members.map fun _ => 1) readings := by
  have hallows {member : Node} : Allows member 1 := ⟨by omega, by omega⟩
  induction members generalizing readings with
  | nil =>
    constructor
    · intro h
      cases h
      exact .nil
    · intro h
      cases h
      exact .nil
  | cons member members ih =>
    have ih {readings : List Reading} :=
      @ih readings fun other hother => hmembers other (by simp [hother])
    constructor
    · intro h
      generalize hkeys : ([] : List Text) = keys at h
      cases h with
      | cons hnode hnodes =>
        obtain ⟨rfl, rfl⟩ := List.append_eq_nil_iff.mp hkeys.symm
        have hoccurs := occurs_of_derives (hmembers member (by simp)) hnode
        exact .cons hallows (times_one_iff.mpr hoccurs) (ih.mp hnodes)
    · intro h
      cases h with
      | cons _ htimes hrest => exact .cons (.once (times_one_iff.mp htimes)) (ih.mpr hrest)

/-- A group takes the words that its members take. -/
theorem occurs_group_iff {flags : FlagTable} {occ : Occurrence} {readings : List Reading}
    (hmembers : ∀ member ∈ members, IsRequired member) :
    Occurs flags (.sequence occ members) readings [] ↔
      Assigns flags members (members.map fun _ => 1) readings := by
  rw [← derivesAll_iff_assigns hmembers]
  constructor
  · intro h
    cases h with
    | sequence hchildren => exact hchildren
  · exact .sequence

theorem filter_positional_of_takesWord (h : ∀ member ∈ members, takesWord member = true) :
    members.filter Node.positional = members := by
  rw [List.filter_eq_self]
  exact fun member hmember => positional_of_takesWord (h member hmember)

section Members

variable {occ : Occurrence}

theorem positional?_group (hlength : 2 ≤ members.length)
    (hmembers : ∀ member ∈ members, takesWord member = true) :
    (Node.sequence occ members).positional? = some true := by
  cases members with
  | nil => cases hlength
  | cons member members =>
    have hmember := positional?_of_takesWord (hmembers member (by simp))
    simp [Node.positional?, Node.anyPositional?, hmember]

theorem length_pos_of_occurs_group {flags : FlagTable} (hlength : 2 ≤ members.length)
    (hmembers : ∀ member ∈ members, takesWord member = true ∧ IsRequired member)
    {readings : List Reading} (h : Occurs flags (.sequence occ members) readings []) :
    0 < readings.length := by
  cases members with
  | nil => cases hlength
  | cons member members =>
    cases (occurs_group_iff fun member hmem => (hmembers member hmem).2).mp h with
    | cons _ htimes _ =>
      have hone : _ = 1 := length_of_times (hmembers member (by simp)).1 htimes
      rw [List.length_append, hone]
      omega

variable (hmembers : ∀ member ∈ members, takesWord member = true ∧ IsRequired member)
include hmembers

/-- An occurrence of a group is accepted by the search through its members, unless that has to take
all words and the occurrence leaves some over. -/
theorem accepted_of_occurs_group (last : Bool) {token : Nat} {readings : List Reading}
    (h : Occurs line.flags (.sequence occ members) readings []) (hspells : Spells line token readings)
    (hall : last = true → token + readings.length = line.words.length) :
    Accepted line last members token (members.map fun _ => 1) readings := by
  have hassigns := (occurs_group_iff fun member hmem => (hmembers member hmem).2).mp h
  have hpositional := filter_positional_of_takesWord fun member hmem => (hmembers member hmem).1
  exact accepted_of_assigns (hpositional.symm ▸ hassigns) hspells hall

theorem flagKey?_of_mem_group {member : Node} (h : member ∈ members) : flagKey? member = none :=
  flagKey?_eq_none (positional?_of_takesWord (hmembers member h).1)

/-- What the search through the members of a group takes is an occurrence of the group, for which no
flag is admitted. -/
theorem occurs_group_of_greatest {last : Bool} {token : Nat} {counts : List Nat}
    {readings : List Reading} (h : Greatest line last members token counts readings) :
    Occurs line.flags (.sequence occ members) readings [] := by
  have hrequired := fun member hmem => (hmembers member hmem).2
  obtain ⟨hassigns, -⟩ := assigns_of_accepted h.accepted
  rw [filter_positional_of_takesWord fun member hmem => (hmembers member hmem).1] at hassigns
  obtain rfl := counts_eq_of_assigns hrequired hassigns
  exact (occurs_group_iff hrequired).mpr hassigns

/-- A group is there whenever its words are, unless it has to take all words and they are not all. -/
theorem attempt_group_cases (hwords : ∀ word ∈ line.words, word.text.isSome = true) {token : Nat}
    (htoken : token ≤ line.words.length) (last : Bool) (memory : Memory) :
    (∃ readings, Occurs line.flags (.sequence occ members) readings [] ∧
      Spells line token readings ∧
      attempt line (.sequence occ members) token last memory = (.upTo (token + readings.length),
        memory.withTrail (memory.trail.note token readings []))) ∨
    (attempt line (.sequence occ members) token last memory = (.refused, memory) ∧
      ∀ readings, Occurs line.flags (.sequence occ members) readings [] →
        Spells line token readings → last = true ∧ token + readings.length ≠ line.words.length) := by
  have hstack : (attempt line (.sequence occ members) token last memory).2.stack = memory.stack :=
    (matcher line (.sequence occ members)).stack_attempt token last memory
  have hplain : ∀ member ∈ members, Plain line member := fun member hmem =>
    .inl (rigid_of_takesWord (hmembers member hmem).1 hwords)
  have hfound := found_descend hplain last htoken memory
  rw [attempt_sequence, allOf_eq_descend] at hstack ⊢
  generalize descend line.words.length last (members.map (slotOf line)) token memory = result
    at hstack hfound ⊢
  cases hfound with
  | @upTo counts readings keys next after hgreatest hwalks hsuits hkeys =>
    obtain ⟨rfl, hspells, htrail⟩ := hwalks
    have hnil : keys = [] := by
      rw [List.eq_nil_iff_forall_not_mem]
      intro key hkey
      obtain ⟨-, member, hmem, heq⟩ := (hkeys key).mp hkey
      rw [flagKey?_of_mem_group hmembers hmem] at heq
      cases heq
    have hafter : after = memory.withTrail (memory.trail.note token readings []) := by
      obtain ⟨trail, stack⟩ := after
      obtain rfl : stack = memory.stack := hstack
      rw [← hnil, ← htrail]
      rfl
    exact .inl ⟨readings, occurs_group_of_greatest hmembers hgreatest, hspells, by rw [hafter]⟩
  | refused hnone =>
    refine .inr ⟨rfl, fun readings hoccurs hspells => ?_⟩
    have hsuits : ∀ member ∈ members, Suits line.flags member := by
      intro member hmem key hkey
      rw [flagKey?_of_mem_group hmembers hmem] at hkey
      cases hkey
    have hnotAll : ¬ (last = true → token + readings.length = line.words.length) := fun hall =>
      hnone hsuits _ _ (accepted_of_occurs_group hmembers last hoccurs hspells hall)
    by_cases hlast : last = true
    · exact ⟨hlast, fun heq => hnotAll fun _ => heq⟩
    · exact absurd (fun h => absurd h hlast) hnotAll

end Members

theorem rigid_of_isGroup {node : Node} (h : IsGroup node)
    (hwords : ∀ word ∈ line.words, word.text.isSome = true) : Rigid line node := by
  obtain ⟨occ, members, rfl, hlength, hmembers⟩ := h
  refine ⟨positional?_group hlength fun member hmem => (hmembers member hmem).1,
    length_pos_of_occurs_group hlength hmembers, ?_, attempt_group_cases hmembers hwords⟩
  intro token readings readings' hoccurs hoccurs' hspells hspells'
  have hplain : ∀ member ∈ members, Plain line member := fun member hmem =>
    .inl (rigid_of_takesWord (hmembers member hmem).1 hwords)
  have haccepted := accepted_of_occurs_group hmembers false hoccurs hspells (by simp)
  have haccepted' := accepted_of_occurs_group hmembers false hoccurs' hspells' (by simp)
  exact accepted_unique hplain haccepted haccepted'

end Group

/-! ## §2 The last child -/

section Last

variable {line : Parsed} {front : List Node} {node : Node} {token : Nat} {counts : List Nat}
  {readings : List Reading}

/-- What is accepted is an assignment of the nodes before the last, and a number of occurrences of
the last node that takes all words if it is not zero. -/
theorem cases_of_accepted_append (hfront : ∀ other ∈ front, other.positional = true)
    (hpositional : node.positional = true)
    (h : Accepted line true (front ++ [node]) token counts readings) :
    ∃ before count readings' readings'', counts = before ++ [count] ∧
      readings = readings' ++ readings'' ∧ Assigns line.flags front before readings' ∧
      Spells line token readings' ∧ Allows node count ∧ Times line.flags node count readings'' ∧
      (count ≠ 0 → token + readings.length = line.words.length) := by
  induction front generalizing token counts readings with
  | nil =>
    obtain ⟨count, rest, readings', behind, rfl, rfl, hallows, htimes, hspells, hend, hrest⟩ :=
      cases_of_accepted_node hpositional h
    cases hrest
    refine ⟨[], count, [], readings', rfl, by simp, .nil, trivial, hallows, htimes, ?_⟩
    intro hcount
    simpa using hend rfl rfl hcount
  | cons first front ih =>
    obtain ⟨count, rest, readings', behind, rfl, rfl, hallows, htimes, hspells, -, hrest⟩ :=
      cases_of_accepted_node (hfront first (by simp)) h
    obtain ⟨before, last, behind', behind'', rfl, rfl, hassigns, hspells', hlast, htimes', hend⟩ :=
      ih (fun other hother => hfront other (by simp [hother])) hrest
    refine ⟨count :: before, last, readings' ++ behind', behind'', rfl, by simp,
      .cons hallows htimes hassigns, spells_append.mpr ⟨hspells, hspells'⟩, hlast, htimes',
      fun hcount => ?_⟩
    have := hend hcount
    simp only [List.length_append] at this ⊢
    omega

/-- An assignment of the nodes before the last is accepted if the last node may be left out. -/
theorem accepted_append_of_assigns (hfront : ∀ other ∈ front, other.positional = true)
    (hpositional : node.positional = true) (hoptional : node.optional = true)
    (hassigns : Assigns line.flags front counts readings) (hspells : Spells line token readings) :
    Accepted line true (front ++ [node]) token (counts ++ [0]) readings := by
  induction hassigns generalizing token with
  | nil =>
    have hallows : Allows node 0 := ⟨fun _ => hoptional, by omega⟩
    exact .node hpositional hallows .zero trivial (by simp) .nil
  | cons hallows htimes _ ih =>
    rw [spells_append] at hspells
    refine .node (hfront _ (by simp)) hallows htimes hspells.1 (by simp) ?_
    exact ih (fun other hother => hfront other (by simp [hother])) hspells.2

theorem noGreater_of_append {as bs : List Nat} {a b : Nat} (hlength : as.length = bs.length)
    (h : NoGreater (as ++ [a]) (bs ++ [b])) : NoGreater as bs ∧ (as = bs → a ≤ b) := by
  induction as generalizing bs with
  | nil =>
    cases bs with
    | nil =>
      rw [List.nil_append, List.nil_append, noGreater_cons_iff] at h
      exact ⟨noGreater_refl _, fun _ => by omega⟩
    | cons => cases hlength
  | cons a' as ih =>
    cases bs with
    | nil => cases hlength
    | cons b' bs =>
      rw [List.cons_append, List.cons_append, noGreater_cons_iff] at h
      rw [noGreater_cons_iff]
      rcases h with hlt | ⟨rfl, hle⟩
      · refine ⟨.inl hlt, fun heq => ?_⟩
        cases heq
        omega
      · obtain ⟨hle, hlast⟩ := ih (by simpa using hlength) hle
        refine ⟨.inr ⟨rfl, hle⟩, fun heq => ?_⟩
        cases heq
        exact hlast rfl

end Last

/-! ## §3 Lines -/

/-- If the last node may be left out, the others occur as the greatest assignment says with which
they match a beginning of the line. -/
def GreatestBeforeLast (flags : FlagTable) (nodes : List Node) (words : List Text)
    (counts : List Nat) : Prop :=
  ∀ last, nodes.getLast? = some last → last.optional = true →
    ∀ counts' readings', Assigns flags nodes.dropLast counts' readings' →
      readings'.map Reading.word <+: words → NoGreater counts' counts.dropLast

theorem rigid_of_isPiece {line : Parsed} {node : Node} (h : IsPiece node)
    (hwords : ∀ word ∈ line.words, word.text.isSome = true) : Rigid line node := by
  rcases h.1 with hword | hgroup
  · exact rigid_of_takesWord hword hwords
  · exact rigid_of_isGroup hgroup hwords

section Condition

variable {line : Parsed} {words : List Text} {nodes : List Node} {counts counts' : List Nat}
  {readings readings' : List Reading}

/-- The greatest assignment that is accepted is greatest before the last node. -/
theorem greatestBeforeLast_of_greatest (htexts : line.texts? = some words)
    (hpositional : ∀ node ∈ nodes, node.positional = true)
    (h : Greatest line true nodes 0 counts readings) :
    GreatestBeforeLast line.flags nodes words counts := by
  intro last hlast hoptional counts' readings' hassigns' hstarts
  obtain ⟨front, rfl⟩ := List.getLast?_eq_some_iff.mp hlast
  have hfront : ∀ node ∈ front, node.positional = true := fun node hnode =>
    hpositional node (by simp [hnode])
  rw [List.dropLast_concat] at hassigns'
  have hspells' : Spells line 0 readings' := (spells_iff_isPrefix htexts).mpr hstarts
  have hle := h.le
    (accepted_append_of_assigns hfront (hpositional last (by simp)) hoptional hassigns' hspells')
  obtain ⟨before, count, _, _, rfl, -, hassigns, -⟩ :=
    cases_of_accepted_append hfront (hpositional last (by simp)) h.accepted
  rw [List.dropLast_concat]
  refine (noGreater_of_append ?_ hle).1
  rw [length_counts_of_assigns hassigns, length_counts_of_assigns hassigns']

/-- If some assignment that takes all words is greatest before the last node, the greatest one that
is accepted takes all words as well. -/
theorem length_of_greatestBeforeLast (htexts : line.texts? = some words)
    (hrigid : ∀ node ∈ nodes, Rigid line node)
    (haccepted : Accepted line true nodes 0 counts readings)
    (hall : readings.length = line.words.length)
    (hbefore : GreatestBeforeLast line.flags nodes words counts)
    (h : Greatest line true nodes 0 counts' readings') :
    readings'.length = line.words.length := by
  cases hlast : nodes.getLast? with
  | none =>
    obtain rfl := List.getLast?_eq_none_iff.mp hlast
    cases haccepted
    cases h.accepted
    exact hall
  | some last =>
    obtain ⟨front, rfl⟩ := List.getLast?_eq_some_iff.mp hlast
    have hfront : ∀ node ∈ front, node.positional = true := fun node hnode =>
      (hrigid node (by simp [hnode])).isPositional
    have hpositional : last.positional = true := (hrigid last (by simp)).isPositional
    obtain ⟨before, count, _, _, rfl, -, hassigns, -⟩ :=
      cases_of_accepted_append hfront hpositional haccepted
    obtain ⟨before', count', front', _, rfl, -, hassigns', hspells', hallows', -, hend'⟩ :=
      cases_of_accepted_append hfront hpositional h.accepted
    rcases Nat.eq_zero_or_pos count' with rfl | hpos
    · -- then both leave out the last node, and agree on the nodes before it
      have hle := hbefore last hlast (hallows'.optional_of_zero rfl) before' front'
        (by rwa [List.dropLast_concat]) ((spells_iff_isPrefix htexts).mp hspells')
      rw [List.dropLast_concat] at hle
      obtain ⟨hle', hcount⟩ := noGreater_of_append
        (by rw [length_counts_of_assigns hassigns, length_counts_of_assigns hassigns'])
        (h.le haccepted)
      obtain rfl : before = before' := noGreater_antisymm hle' hle
      obtain rfl : count = 0 := Nat.le_zero.mp (hcount rfl)
      rw [accepted_unique (fun node hnode => .inl (hrigid node hnode)) h.accepted haccepted, hall]
    · have := hend' (by omega)
      omega

end Condition

/-- **Optional groups.** On a line without flags the matcher finds bindings just if some assignment
covers the words, and covers them in the way in which the search comes to the last child if that is
optional. -/
theorem parse_optionalGroups {children : List Node} {source : Text} {line : Parsed}
    (hpieces : ∀ child ∈ children, IsPiece child)
    (hread : Line.read (.whole source) = .ok line) (hflags : line.flags = []) :
    ∃ words, line.texts? = some words ∧
      (∃ found, parse (Node.sequenceOf children false) source = .ok found) ∧
      ((∃ bindings, parse (Node.sequenceOf children false) source = .ok (some bindings)) ↔
        ∃ counts readings, Covers line.flags children words counts readings ∧
          GreatestBeforeLast line.flags children words counts) := by
  obtain ⟨words, htexts⟩ := Line.texts?_of_read_whole hread
  have hrigid : ∀ child ∈ children, Rigid line child := fun child hchild =>
    rigid_of_isPiece (hpieces child hchild) fun word => isSome_text_of_texts? htexts
  have hplain : ∀ child ∈ children, Plain line child := fun child hchild =>
    .inl (hrigid child hchild)
  have hall : ∀ child ∈ children, child.positional = true := fun child hchild =>
    (hrigid child hchild).isPositional
  have hpositional : children.filter Node.positional = children := List.filter_eq_self.mpr hall
  have hfit : FlagsFit children line.flags := by
    rw [flagsFit_iff, hflags]
    refine ⟨fun child hchild key hkey => ?_, by simp [FlagTable.keys]⟩
    rw [flagKey?_eq_none (hrigid child hchild).positional] at hkey
    cases hkey
  refine ⟨words, htexts, ?_⟩
  rcases cases_of_parse hplain hread with
    ⟨-, counts, readings, hgreatest, hlength, hparse⟩ | ⟨hparse, hover⟩
  · rw [hparse]
    refine ⟨⟨_, rfl⟩, ⟨fun _ => ?_, fun _ => ⟨_, rfl⟩⟩⟩
    obtain ⟨hassigns, hspells⟩ := assigns_of_accepted hgreatest.accepted
    rw [hpositional] at hassigns
    refine ⟨counts, readings, ⟨hassigns, (map_word_eq_iff htexts).mpr ⟨hspells, hlength⟩⟩, ?_⟩
    exact greatestBeforeLast_of_greatest htexts hall hgreatest
  · rw [hparse]
    refine ⟨⟨_, rfl⟩, ⟨?_, ?_⟩⟩
    · rintro ⟨bindings, ⟨⟩⟩
    · rintro ⟨counts, readings, ⟨hassigns, hcovers⟩, hbefore⟩
      obtain ⟨hspells, hlength⟩ := (map_word_eq_iff htexts).mp hcovers
      have haccepted : Accepted line true children 0 counts readings :=
        accepted_of_assigns (by rwa [hpositional]) hspells (by omega)
      rcases hover hfit with hnone | ⟨counts', readings', hgreatest, hlt⟩
      · exact absurd haccepted (hnone counts readings)
      · have := length_of_greatestBeforeLast htexts hrigid haccepted hlength hbefore hgreatest
        omega

/-- Two optional children may be left out before one that has to be there. -/
theorem parse_optionalGroups_required :
    ∃ line words, Line.read (.whole "b c x".toList) = .ok line ∧ line.flags = [] ∧
      line.texts? = some words ∧
      ∃ counts readings,
        Covers line.flags
            [.parameter ⟨true, false⟩ "a".toList,
              .sequence ⟨true, false⟩ [.literal {} "b".toList, .literal {} "c".toList],
              .parameter {} "d".toList]
            words counts readings ∧
          GreatestBeforeLast line.flags
            [.parameter ⟨true, false⟩ "a".toList,
              .sequence ⟨true, false⟩ [.literal {} "b".toList, .literal {} "c".toList],
              .parameter {} "d".toList]
            words counts := by
  obtain ⟨line, hread, hflags, -⟩ := @read_of_toOption ["b".toList, "c".toList, "x".toList]
    "b c x".toList [] (by decide +kernel)
  let children : List Node := [.parameter ⟨true, false⟩ "a".toList,
    .sequence ⟨true, false⟩ [.literal {} "b".toList, .literal {} "c".toList],
    .parameter {} "d".toList]
  have hpieces : ∀ child ∈ children, IsPiece child := by
    simp [children, IsPiece, isGroup_literals, takesWord, Node.repeating, Node.occ]
  obtain ⟨words, htexts, -, hiff⟩ := parse_optionalGroups hpieces hread hflags
  refine ⟨line, words, hread, hflags, htexts, hiff.mp ?_⟩
  exact ⟨⟨[("unnamed_0".toList, some "b".toList), ("unnamed_1".toList, some "c".toList),
    ("d".toList, some "x".toList)]⟩, eq_ok_of_toOption (by decide +kernel)⟩

/-- A line that is covered need not be matched. Here the parameter is left out when it turns out
that the group cannot follow it, and the group is left out when two words are over. -/
theorem not_forall_parse_of_covers :
    ¬ ∀ (children : List Node) (source : Text) (line : Parsed) (words : List Text),
      (∀ child ∈ children, IsPiece child) → Line.read (.whole source) = .ok line →
      line.flags = [] → line.texts? = some words →
      (∃ counts readings, Covers line.flags children words counts readings) →
      ∃ bindings, parse (Node.sequenceOf children false) source = .ok (some bindings) := by
  intro h
  obtain ⟨line, hread, hflags, htexts⟩ := @read_of_toOption ["b".toList, "c".toList]
    "b c".toList [] (by decide +kernel)
  let children : List Node := [.parameter ⟨true, false⟩ "a".toList,
    .sequence ⟨true, false⟩ [.literal {} "b".toList, .literal {} "c".toList]]
  have hpieces : ∀ child ∈ children, IsPiece child := by
    simp [children, IsPiece, isGroup_literals, takesWord, Node.repeating, Node.occ]
  have hgroup : Occurs line.flags
      (.sequence ⟨true, false⟩ [.literal {} "b".toList, .literal {} "c".toList])
      [.keyword "b".toList, .keyword "c".toList] [] :=
    .sequence (.cons (.once (.literal _ _)) (.cons (.once (.literal _ _)) .nil))
  have hcovers : Covers line.flags children ["b".toList, "c".toList] [0, 1]
      [.keyword "b".toList, .keyword "c".toList] :=
    ⟨.cons ⟨fun _ => rfl, by omega⟩ .zero
      (.cons ⟨by omega, by omega⟩ (times_one_iff.mpr hgroup) .nil), rfl⟩
  obtain ⟨bindings, hparse⟩ :=
    h children "b c".toList line _ hpieces hread hflags htexts ⟨_, _, hcovers⟩
  have hnone : parse (Node.sequenceOf children false) "b c".toList = .ok none :=
    eq_ok_of_toOption (by decide +kernel)
  rw [hnone] at hparse
  cases hparse

end Match

end Synopsis
