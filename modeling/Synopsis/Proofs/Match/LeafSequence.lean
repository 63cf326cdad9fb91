/-
Synopsis.Proofs.Match.LeafSequence — sequences of literals, parameters and flags.

On a sequence without groups the matcher is complete and greedy
(`parse_leafSequence`): it finds bindings whenever the flags fit and the words can be
assigned to the literals and parameters, and it takes the greatest such assignment.

The search itself settles for less: if the last node may be left out, it is content
with an assignment that leaves words over. On leaves this hides nothing
(`ne_length_of_greatest`). If an assignment to all words began no later than the
greatest one that is accepted, then at some node it would have caught up with it, and
from there on it would be greater.
-/
import Synopsis.Proofs.Line.Whole
import Synopsis.Proofs.Match.Root

namespace Synopsis

namespace Match

open Line (Parsed)

/-! ## §1 Literals and parameters -/

def takesWord : Node → Bool
  | .literal _ _ | .parameter _ _ => true
  | _ => false

def IsLeaf (node : Node) : Prop := takesWord node = true ∨ ∃ key, flagKey? node = some key

def takes : Node → Text → Bool
  | .literal _ name, text => text == name
  | .parameter _ _, _ => true
  | _, _ => false

def readingOf : Node → Text → Reading
  | .parameter _ name, text => .value name text
  | _, text => .keyword text

section Leaf

variable {line : Parsed} {node : Node}

theorem occurs_iff_of_takesWord (h : takesWord node = true) {flags : FlagTable}
    {readings : List Reading} :
    Occurs flags node readings [] ↔
      ∃ text, takes node text = true ∧ readings = [readingOf node text] := by
  cases node with
  | literal occ name =>
    constructor
    · intro hoccurs
      cases hoccurs
      exact ⟨name, by simp [takes], rfl⟩
    · rintro ⟨text, htakes, rfl⟩
      obtain rfl : text = name := by simpa [takes] using htakes
      exact .literal occ text
  | parameter occ name =>
    constructor
    · intro hoccurs
      cases hoccurs
      exact ⟨_, rfl, rfl⟩
    · rintro ⟨text, -, rfl⟩
      exact .parameter occ name text
  | _ => cases h

theorem positional?_of_takesWord (h : takesWord node = true) : node.positional? = some true := by
  cases node with
  | literal occ name => rfl
  | parameter occ name => rfl
  | _ => cases h

theorem positional_of_takesWord (h : takesWord node = true) : node.positional = true := by
  simp [Node.positional, positional?_of_takesWord h]

theorem word_readingOf (h : takesWord node = true) (text : Text) :
    (readingOf node text).word = text := by
  cases node with
  | literal occ name => rfl
  | parameter occ name => rfl
  | _ => cases h

theorem takeToken_cases (hwords : ∀ word ∈ line.words, word.text.isSome = true) (key : Text)
    (passes : Text → Bool) (token : Nat) (trail : Trail) :
    (∃ word text, line.words[token]? = some word ∧ word.text = some text ∧ passes text = true ∧
      takeToken line key passes token trail = (.upTo (token + 1), trail.capture key text)) ∨
    (takeToken line key passes token trail = (.refused, trail) ∧
      ∀ word text, line.words[token]? = some word → word.text = some text →
        passes text = false) := by
  unfold takeToken
  cases hword : line.words[token]? with
  | none => exact .inr ⟨rfl, by simp⟩
  | some word =>
    obtain ⟨text, htext⟩ := Option.isSome_iff_exists.mp (hwords word (List.mem_of_getElem? hword))
    simp only [htext]
    cases hpasses : passes text with
    | true => exact .inl ⟨word, text, rfl, htext, hpasses, rfl⟩
    | false =>
      refine .inr ⟨rfl, fun word' text' hword' htext' => ?_⟩
      cases hword'
      cases htext.symm.trans htext'
      exact hpasses

theorem attempt_eq_takeToken (h : takesWord node = true) (token : Nat) (last : Bool)
    (memory : Memory) :
    ∃ key, (∀ text, takes node text = true →
        (readingOf node text).capture token = (key, some text)) ∧
      attempt line node token last memory =
        ((takeToken line key (takes node) token memory.trail).1,
          memory.withTrail (takeToken line key (takes node) token memory.trail).2) := by
  unfold attempt
  cases node with
  | literal occ name =>
    refine ⟨unnamedKey token, fun text _ => rfl, ?_⟩
    rw [matcher]
    rfl
  | parameter occ name =>
    refine ⟨name, fun text _ => rfl, ?_⟩
    rw [matcher]
    rfl
  | _ => cases h

/-- Matching a literal or a parameter once. -/
theorem attempt_of_takesWord (h : takesWord node = true)
    (hwords : ∀ word ∈ line.words, word.text.isSome = true) (token : Nat) (last : Bool)
    (memory : Memory) :
    (∃ text, takes node text = true ∧ Spells line token [readingOf node text] ∧
      attempt line node token last memory = (.upTo (token + 1),
        memory.withTrail (memory.trail.note token [readingOf node text] []))) ∨
    (attempt line node token last memory = (.refused, memory) ∧
      ∀ text, takes node text = true → ¬ Spells line token [readingOf node text]) := by
  obtain ⟨key, hcapture, heq⟩ := attempt_eq_takeToken h token last memory
  rw [heq]
  rcases takeToken_cases hwords key (takes node) token memory.trail with
    ⟨word, text, hword, htext, htakes, heq⟩ | ⟨heq, hnone⟩
  · refine .inl ⟨text, htakes, ⟨⟨word, hword, ?_⟩, trivial⟩, ?_⟩
    · rw [word_readingOf h, htext]
    · rw [heq]
      simp [Trail.note, Trail.capture, Reading.captures, hcapture text htakes]
  · refine .inr ⟨by rw [heq]; rfl, ?_⟩
    rintro text htakes ⟨⟨word, hword, htext⟩, -⟩
    rw [word_readingOf h] at htext
    rw [hnone word text hword htext] at htakes
    cases htakes

theorem rigid_of_takesWord (h : takesWord node = true)
    (hwords : ∀ word ∈ line.words, word.text.isSome = true) : Rigid line node where
  positional := positional?_of_takesWord h
  length_pos hoccurs := by
    obtain ⟨text, -, rfl⟩ := (occurs_iff_of_takesWord h).mp hoccurs
    exact Nat.one_pos
  unique hoccurs hoccurs' hspells hspells' := by
    obtain ⟨text, -, rfl⟩ := (occurs_iff_of_takesWord h).mp hoccurs
    obtain ⟨text', -, rfl⟩ := (occurs_iff_of_takesWord h).mp hoccurs'
    obtain ⟨⟨word, hword, htext⟩, -⟩ := hspells
    obtain ⟨⟨word', hword', htext'⟩, -⟩ := hspells'
    rw [word_readingOf h] at htext htext'
    cases hword.symm.trans hword'
    cases htext.symm.trans htext'
    rfl
  attempt_cases {token} _ last memory := by
    rcases attempt_of_takesWord h hwords token last memory with
      ⟨text, htakes, hspells, heq⟩ | ⟨heq, hnone⟩
    · exact .inl ⟨_, (occurs_iff_of_takesWord h).mpr ⟨text, htakes, rfl⟩, hspells, heq⟩
    · refine .inr ⟨heq, fun readings hoccurs hspells => ?_⟩
      obtain ⟨text, htakes, rfl⟩ := (occurs_iff_of_takesWord h).mp hoccurs
      exact absurd hspells (hnone text htakes)

/-- A literal or a parameter takes as many words as it occurs. -/
theorem length_of_times (h : takesWord node = true) {flags : FlagTable} {count : Nat}
    {readings : List Reading} (htimes : Times flags node count readings) :
    readings.length = count := by
  induction htimes with
  | zero => rfl
  | succ hoccurs _ ih =>
    obtain ⟨text, -, rfl⟩ := (occurs_iff_of_takesWord h).mp hoccurs
    rw [List.length_append, ih, List.length_singleton, Nat.add_comm]

end Leaf

/-! ## §2 Assignments that leave words over -/

section Leaves

variable {line : Parsed} {nodes : List Node}

theorem plain_of_isLeaf {node : Node} (h : IsLeaf node)
    (hwords : ∀ word ∈ line.words, word.text.isSome = true) : Plain line node :=
  h.imp_left fun hword => rigid_of_takesWord hword hwords

/-- What is greatest with a flag in front is greatest without it. -/
theorem Greatest.of_flag {node : Node} (hpositional : node.positional = false) {last : Bool}
    {token : Nat} {counts : List Nat} {readings : List Reading}
    (h : Greatest line last (node :: nodes) token counts readings) :
    Greatest line last nodes token counts readings where
  accepted := (cases_of_accepted_flag hpositional h.accepted).2
  le haccepted :=
    h.le (.flag hpositional (cases_of_accepted_flag hpositional h.accepted).1 haccepted)

/-- What is greatest with a node in front is greatest behind that node. -/
theorem Greatest.of_node {node : Node} (hpositional : node.positional = true) {last : Bool}
    {token : Nat} {counts : List Nat} {readings : List Reading}
    (h : Greatest line last (node :: nodes) token counts readings) :
    ∃ count rest front behind, counts = count :: rest ∧ readings = front ++ behind ∧
      Times line.flags node count front ∧
      Greatest line last nodes (token + front.length) rest behind := by
  obtain ⟨count, rest, front, behind, rfl, rfl, hallows, htimes, hspells, hend, hrest⟩ :=
    cases_of_accepted_node hpositional h.accepted
  refine ⟨count, rest, front, behind, rfl, rfl, htimes, hrest, fun {counts'} _ haccepted => ?_⟩
  have hle := h.le (.node hpositional hallows htimes hspells hend haccepted)
  rw [noGreater_cons_iff] at hle
  rcases hle with hlt | ⟨-, hle⟩
  · omega
  · exact hle

/-- An assignment to all words that comes to a word within the occurrences of its first node is
accepted from that word on, with the occurrences that are left. -/
theorem exists_accepted_of_within {node : Node} (hword : takesWord node = true)
    {token earlier count : Nat} {counts : List Nat} {front behind : List Reading}
    (hearlier : earlier ≤ token) (hwithin : token < earlier + front.length)
    (hallows : Allows node count) (htimes : Times line.flags node count front)
    (hrest : Assigns line.flags (nodes.filter Node.positional) counts behind)
    (hspells : Spells line earlier (front ++ behind))
    (hall : earlier + (front ++ behind).length = line.words.length) :
    ∃ readings, Accepted line true (node :: nodes) token
      ((count - (token - earlier)) :: counts) readings := by
  have hpositional := positional_of_takesWord hword
  have hfront := length_of_times hword htimes
  obtain ⟨before, after, rfl, hbefore, hafter⟩ :=
    htimes.take (show token - earlier ≤ count by omega)
  have hlength := length_of_times hword hbefore
  have hmeet : earlier + before.length = token := by omega
  rw [List.append_assoc, spells_append, hmeet] at hspells
  have hallows' : Allows node (count - (token - earlier)) :=
    ⟨by omega, fun hmore => hallows.repeating_of_more (by omega)⟩
  refine ⟨after ++ behind, accepted_of_assigns ?_ hspells.2 ?_⟩
  · rw [List.filter_cons_of_pos hpositional]
    exact .cons hallows' hafter hrest
  · simp only [List.length_append] at hall ⊢
    omega

/-- An assignment to all words that begins at an earlier word than the greatest one that is accepted
is not ahead of it behind the first node: it would be greater from the word on at which that one
begins. -/
theorem Greatest.le_of_earlier {node : Node} (hword : takesWord node = true)
    {token earlier count count' : Nat} {counts counts' : List Nat}
    {readings front front' behind' : List Reading}
    (h : Greatest line true (node :: nodes) token (count :: counts) readings)
    (htimes : Times line.flags node count front) (hearlier : earlier ≤ token)
    (hallows' : Allows node count') (htimes' : Times line.flags node count' front')
    (hrest' : Assigns line.flags (nodes.filter Node.positional) counts' behind')
    (hspells' : Spells line earlier (front' ++ behind'))
    (hall : earlier + (front' ++ behind').length = line.words.length) :
    earlier + front'.length ≤ token + front.length := by
  have hfront := length_of_times hword htimes
  have hfront' := length_of_times hword htimes'
  refine Nat.le_of_not_lt fun hahead => ?_
  obtain ⟨readings', haccepted⟩ := exists_accepted_of_within hword hearlier (by omega) hallows'
    htimes' hrest' hspells' hall
  have hle := h.le haccepted
  rw [noGreater_cons_iff] at hle
  omega

/-- If the greatest assignment that is accepted leaves words over, there is no assignment to all
words from its beginning on, and none from an earlier word on. -/
theorem ne_length_of_greatest (hleaves : ∀ node ∈ nodes, IsLeaf node) {token : Nat}
    {counts : List Nat} {readings : List Reading}
    (hgreatest : Greatest line true nodes token counts readings)
    (hover : token + readings.length < line.words.length) {earlier : Nat}
    (hearlier : earlier ≤ token) {counts' : List Nat} {readings' : List Reading}
    (hassigns : Assigns line.flags (nodes.filter Node.positional) counts' readings')
    (hspells : Spells line earlier readings') :
    earlier + readings'.length ≠ line.words.length := by
  induction nodes generalizing token counts readings earlier counts' readings' with
  | nil =>
    cases hassigns
    rw [List.length_nil]
    omega
  | cons node nodes ih =>
    have ih := @ih fun other hother => hleaves other (by simp [hother])
    rcases hleaves node (by simp) with hword | ⟨key, hkey⟩
    · have hpositional := positional_of_takesWord hword
      obtain ⟨count, rest, front, behind, rfl, rfl, htimes, hgreatest'⟩ :=
        hgreatest.of_node hpositional
      rw [List.filter_cons_of_pos hpositional] at hassigns
      cases hassigns with
      | cons hallows' htimes' hrest' =>
        intro hall
        have hbehind := hgreatest.le_of_earlier hword htimes hearlier hallows' htimes' hrest' hspells
          hall
        rw [List.length_append] at hover hall
        exact ih hgreatest' (by omega) hbehind hrest' (spells_append.mp hspells).2 (by omega)
    · have hpositional := positional_of_flagKey? hkey
      rw [List.filter_cons_of_neg (by simp [hpositional])] at hassigns
      exact ih (hgreatest.of_flag hpositional) hover hearlier hassigns hspells

end Leaves

/-! ## §3 Lines -/

/-- **Completeness and greed.** On a sequence of literals, parameters and flags the matcher finds
bindings just if the flags fit and some assignment covers the words, and the captures are those of
the greatest such assignment. -/
theorem parse_leafSequence {children : List Node} {source : Text} {line : Parsed}
    (hleaves : ∀ child ∈ children, IsLeaf child)
    (hread : Line.read (.whole source) = .ok line) :
    ∃ words, line.texts? = some words ∧
      (∃ found, parse (Node.sequenceOf children false) source = .ok found) ∧
      ((∃ bindings, parse (Node.sequenceOf children false) source = .ok (some bindings)) ↔
        FlagsFit children line.flags ∧ ∃ counts readings,
          Covers line.flags (children.filter Node.positional) words counts readings) ∧
      ∀ bindings, parse (Node.sequenceOf children false) source = .ok (some bindings) →
        ∃ counts readings,
          Covers line.flags (children.filter Node.positional) words counts readings ∧
          (∀ counts' readings',
            Covers line.flags (children.filter Node.positional) words counts' readings' →
              NoGreater counts' counts) ∧
          bindings.captures = Reading.captures 0 readings ++ line.flags := by
  obtain ⟨words, htexts⟩ := Line.texts?_of_read_whole hread
  have hplain : ∀ child ∈ children, Plain line child := fun child hchild =>
    plain_of_isLeaf (hleaves child hchild) fun word => isSome_text_of_texts? htexts
  -- an assignment that covers the words is accepted
  have haccepted {counts : List Nat} {readings : List Reading}
      (h : Covers line.flags (children.filter Node.positional) words counts readings) :
      Accepted line true children 0 counts readings := by
    obtain ⟨hassigns, hcovers⟩ := h
    obtain ⟨hspells, hlength⟩ := (map_word_eq_iff htexts).mp hcovers
    exact accepted_of_assigns hassigns hspells (by omega)
  have hcovers {counts : List Nat} {readings : List Reading}
      (h : Greatest line true children 0 counts readings)
      (hall : readings.length = line.words.length) :
      Covers line.flags (children.filter Node.positional) words counts readings := by
    obtain ⟨hassigns, hspells⟩ := assigns_of_accepted h.accepted
    exact ⟨hassigns, (map_word_eq_iff htexts).mpr ⟨hspells, hall⟩⟩
  refine ⟨words, htexts, ?_⟩
  rcases cases_of_parse hplain hread with
    ⟨hfit, counts, readings, hgreatest, hall, hparse⟩ | ⟨hparse, hover⟩
  · rw [hparse]
    have hcovers := hcovers hgreatest hall
    refine ⟨⟨_, rfl⟩, ⟨fun _ => ⟨hfit, counts, readings, hcovers⟩, fun _ => ⟨_, rfl⟩⟩, ?_⟩
    rintro bindings ⟨⟩
    exact ⟨counts, readings, hcovers, fun _ _ h => hgreatest.le (haccepted h), rfl⟩
  · rw [hparse]
    refine ⟨⟨_, rfl⟩, ⟨?_, ?_⟩, ?_⟩
    · rintro ⟨bindings, ⟨⟩⟩
    · rintro ⟨hfit, counts, readings, h⟩
      rcases hover hfit with hnone | ⟨_, readings', hgreatest, hlt⟩
      · exact absurd (haccepted h) (hnone counts readings)
      · obtain ⟨hspells, hlength⟩ := (map_word_eq_iff htexts).mp h.2
        exact absurd (by omega)
          (ne_length_of_greatest hleaves hgreatest (by omega) (Nat.le_refl 0) h.1 hspells)
    · rintro bindings ⟨⟩

/-- Of two repeated parameters the first takes all words but one, whatever flags stand between
them. -/
theorem parse_leafSequence_two_parameters :
    ∃ line words, Line.read (.whole "a b --v c".toList) = .ok line ∧ line.texts? = some words ∧
      ∃ counts readings,
        Covers line.flags [.parameter ⟨false, true⟩ "x".toList, .parameter ⟨false, true⟩ "y".toList]
          words counts readings ∧
        (∀ counts' readings',
          Covers line.flags
              [.parameter ⟨false, true⟩ "x".toList, .parameter ⟨false, true⟩ "y".toList]
              words counts' readings' →
            NoGreater counts' counts) ∧
        [("x".toList, some "a".toList), ("x".toList, some "b".toList),
          ("y".toList, some "c".toList), ("v".toList, none)] =
            Reading.captures 0 readings ++ line.flags := by
  obtain ⟨line, hread, -, -⟩ := @read_of_toOption ["a".toList, "b".toList, "c".toList]
    "a b --v c".toList [("v".toList, none)] (by decide +kernel)
  let children : List Node := [.parameter ⟨false, true⟩ "x".toList, .flag {} "v".toList,
    .parameter ⟨false, true⟩ "y".toList]
  have hleaves : ∀ child ∈ children, IsLeaf child := by
    simp [children, IsLeaf, takesWord, flagKey?]
  obtain ⟨words, htexts, -, -, hgreatest⟩ := parse_leafSequence hleaves hread
  refine ⟨line, words, hread, htexts, ?_⟩
  exact hgreatest ⟨_⟩ (eq_ok_of_toOption (by decide +kernel))

end Match

end Synopsis
