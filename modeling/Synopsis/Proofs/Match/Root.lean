/-
Synopsis.Proofs.Match.Root — lines and a sequence at the root of a tree.

If the root of a tree is a sequence of rigid elements and flags, a line fits just if
its flags fit the children and the greatest assignment that the search accepts takes
all words (`cases_of_parse`). The captures are then those of this assignment.
-/
import Synopsis.Node.Group
import Synopsis.Proofs.Match.Greedy

namespace Synopsis

namespace Match

open Line (Parsed)

/-! ## §1 The words of a line -/

section Words

variable {line : Parsed} {words : List Text}

/-- A line of which all texts are known has as many texts as words. -/
theorem length_of_texts? (h : line.texts? = some words) : words.length = line.words.length := by
  have := congrArg List.length (map_eq_of_mapM h)
  simpa using this.symm

theorem getElem?_eq_some_iff_of_texts? (h : line.texts? = some words) {token : Nat} {text : Text} :
    words[token]? = some text ↔ ∃ word, line.words[token]? = some word ∧ word.text = some text := by
  have hget := congrArg (·[token]?) (map_eq_of_mapM h)
  simp only [List.getElem?_map] at hget
  cases hword : line.words[token]? with
  | none =>
    rw [hword] at hget
    cases htext : words[token]? with
    | none => simp
    | some text' => rw [htext] at hget; cases hget
  | some word =>
    rw [hword] at hget
    obtain ⟨text', htext', heq⟩ := Option.map_eq_some_iff.mp hget.symm
    simp [htext', ← heq]

/-- Every word has a text then. -/
theorem isSome_text_of_texts? (h : line.texts? = some words) {word : Line.Word}
    (hword : word ∈ line.words) : word.text.isSome = true := by
  have hmem := List.mem_map_of_mem (f := Line.Word.text) hword
  rw [map_eq_of_mapM h] at hmem
  obtain ⟨text, -, heq⟩ := List.mem_map.mp hmem
  rw [← heq]
  rfl

/-- Readings are spelled if their words are the next words of the line. -/
theorem spells_iff_isPrefix (h : line.texts? = some words) {token : Nat} {readings : List Reading} :
    Spells line token readings ↔ readings.map Reading.word <+: words.drop token := by
  induction readings generalizing token with
  | nil => simp [Spells]
  | cons reading readings ih =>
    rw [Spells, ← getElem?_eq_some_iff_of_texts? h, ih, List.map_cons]
    constructor
    · rintro ⟨hget, hstarts⟩
      obtain ⟨hlt, hget⟩ := List.getElem?_eq_some_iff.mp hget
      rw [List.drop_eq_getElem_cons hlt, hget]
      exact List.cons_prefix_cons.mpr ⟨rfl, hstarts⟩
    · intro hstarts
      by_cases hlt : token < words.length
      · rw [List.drop_eq_getElem_cons hlt, List.cons_prefix_cons] at hstarts
        exact ⟨List.getElem?_eq_some_iff.mpr ⟨hlt, hstarts.1.symm⟩, hstarts.2⟩
      · rw [List.drop_of_length_le (by omega)] at hstarts
        cases List.prefix_nil.mp hstarts

/-- Readings of the whole line are spelled from its beginning to its end. -/
theorem map_word_eq_iff (h : line.texts? = some words) {readings : List Reading} :
    readings.map Reading.word = words ↔
      Spells line 0 readings ∧ readings.length = line.words.length := by
  rw [spells_iff_isPrefix h, List.drop_zero, ← length_of_texts? h]
  constructor
  · rintro rfl
    exact ⟨List.prefix_refl _, (List.length_map _).symm⟩
  · rintro ⟨hstarts, hlength⟩
    exact hstarts.eq_of_length (by rw [List.length_map, hlength])

/-- A line whose flags and texts can be computed is read. -/
theorem read_of_toOption {source : Text} {flags : FlagTable}
    (h : (Line.read (.whole source)).toOption.map (fun line => (line.flags, line.texts?)) =
      some (flags, some words)) :
    ∃ line, Line.read (.whole source) = .ok line ∧ line.flags = flags ∧
      line.texts? = some words := by
  obtain ⟨line, hline, heq⟩ := Option.map_eq_some_iff.mp h
  exact ⟨line, eq_ok_of_toOption hline, congrArg Prod.fst heq, congrArg Prod.snd heq⟩

end Words

/-! ## §2 A sequence at the root -/

section Sequence

variable {children : List Node} {source : Text} {line : Parsed}

/-- A sequence at the root that is not repeated is matched once. -/
theorem judge_sequenceOf (children : List Node) (line : Parsed) :
    judge (Node.sequenceOf children false) line =
      match descend line.words.length true (children.map (slotOf line)) 0 {} with
      | (.upTo next, after) =>
        .ok (if line.words.length ≤ next then verdictOf line after.trail else .mismatch)
      | (.refused, after) =>
        .ok (if children.all Node.optional = true ∧ line.words.length = 0 then
          verdictOf line after.trail else .mismatch)
      | (.barred, _) => .ok .mismatch
      | (.fault fault, _) => .error fault := by
  have honce : (slotOf line (Node.sequenceOf children false)).occ.repeating = true →
      (slotOf line (Node.sequenceOf children false)).positional? = some false := fun h => by cases h
  have hattempt : (slotOf line (Node.sequenceOf children false)).attempt 0 true {} =
      descend line.words.length true (children.map (slotOf line)) 0 {} := by
    rw [← allOf_eq_descend]
    exact attempt_sequence line ⟨children.all Node.optional, false⟩ children 0 true {}
  unfold judge process
  rw [Slot.process_once honce, Slot.once, hattempt]
  generalize descend line.words.length true (children.map (slotOf line)) 0 {} = found
  obtain ⟨attempt, after⟩ := found
  cases attempt with
  | barred => rfl
  | fault fault => rfl
  | upTo next =>
    simp only
    by_cases hall : line.words.length ≤ next
    · rw [Slot.settle_eq_reached_iff.mpr ⟨rfl, by simp, fun _ => hall⟩, if_pos hall]
    · rw [Slot.settle_eq_failed fun h => hall (h.2 rfl), if_neg hall]
  | refused =>
    simp only
    by_cases hall : children.all Node.optional = true ∧ line.words.length = 0
    · rw [Slot.settle_eq_reached_iff.mpr ⟨rfl, fun _ => hall.1, by omega⟩, if_pos hall]
    · rw [Slot.settle_eq_failed fun h => hall ⟨h.1 rfl, Nat.le_zero.mp (h.2 rfl)⟩, if_neg hall]

/-- The flags of a line fit the nodes: each flag that is not optional was given, no other flag was
given, and each was given with a value it can have. -/
structure FlagsFit (nodes : List Node) (flags : FlagTable) : Prop where
  given {node : Node} {key : Text} (hnode : node ∈ nodes) (hkey : flagKey? node = some key)
    (hrequired : node.optional = false) : key ∈ flags.keys
  named {key : Text} (hgiven : key ∈ flags.keys) : ∃ node ∈ nodes, flagKey? node = some key
  accepted {node : Node} {key : Text} {value : Option Text} (hnode : node ∈ nodes)
    (hkey : flagKey? node = some key) (hgiven : flags.get? key = some value) :
    accepts node value = true

theorem flagsFit_iff {nodes : List Node} {flags : FlagTable} :
    FlagsFit nodes flags ↔ (∀ node ∈ nodes, Suits flags node) ∧
      ∀ key ∈ flags.keys, ∃ node ∈ nodes, flagKey? node = some key := by
  constructor
  · intro h
    refine ⟨fun node hnode key hkey => ⟨fun given => h.accepted hnode hkey, fun hnone => ?_⟩,
      fun key => h.named⟩
    by_cases hoptional : node.optional = true
    · exact hoptional
    · have hgiven := FlagTable.mem_keys_iff.mp (h.given hnode hkey (by simpa using hoptional))
      rw [hnone] at hgiven
      cases hgiven
  · rintro ⟨hsuits, hnamed⟩
    refine ⟨?_, fun {key} => hnamed key, ?_⟩
    · intro node key hnode hkey hrequired
      rw [FlagTable.mem_keys_iff, Option.isSome_iff_ne_none]
      intro hnone
      have := (hsuits node hnode key hkey).2 hnone
      rw [hrequired] at this
      cases this
    · intro node key value hnode hkey hgiven
      exact (hsuits node hnode key hkey).1 value hgiven

/-- The numbers of occurrences determine what is accepted. -/
theorem accepted_unique {nodes : List Node} (hplain : ∀ node ∈ nodes, Plain line node) {last : Bool}
    {token : Nat} {counts : List Nat} {readings readings' : List Reading}
    (h : Accepted line last nodes token counts readings)
    (h' : Accepted line last nodes token counts readings') : readings = readings' := by
  induction nodes generalizing token counts readings readings' with
  | nil =>
    cases h
    cases h'
    rfl
  | cons node nodes ih =>
    have ih := @ih fun other hother => hplain other (by simp [hother])
    rcases hplain node (by simp) with hrigid | ⟨key, hkey⟩
    · obtain ⟨_, _, front, behind, hcons, rfl, -, htimes, hspells, -, hrest⟩ :=
        cases_of_accepted_node hrigid.isPositional h
      obtain ⟨_, _, front', behind', hcons', rfl, -, htimes', hspells', -, hrest'⟩ :=
        cases_of_accepted_node hrigid.isPositional h'
      cases hcons
      cases hcons'
      obtain rfl := hrigid.times_unique htimes htimes' hspells hspells'
      rw [ih hrest hrest']
    · have hpositional := positional_of_flagKey? hkey
      exact ih (cases_of_accepted_flag hpositional h).2 (cases_of_accepted_flag hpositional h').2

theorem bindings?_eq_none {verdict : Verdict} (h : ∀ bindings, verdict ≠ .fits bindings) :
    verdict.bindings? = none := by
  cases verdict with
  | fits bindings => exact absurd rfl (h bindings)
  | mismatch => rfl
  | strayFlag key => rfl

/-- What is bound if the search walked along the readings: their captures, provided that every flag
of the line belongs to one of the nodes. -/
theorem verdictOf_walks {nodes : List Node} {next : Nat} {trail : Trail} {readings : List Reading}
    {keys : List Text} (hwalks : Walks line 0 next {} trail readings keys)
    (hkeys : ∀ key, key ∈ keys ↔
      key ∈ line.flags.keys ∧ ∃ node ∈ nodes, flagKey? node = some key) {bindings : Bindings} :
    verdictOf line trail = .fits bindings ↔
      (∀ key ∈ line.flags.keys, ∃ node ∈ nodes, flagKey? node = some key) ∧
        bindings = ⟨Reading.captures 0 readings ++ line.flags⟩ := by
  obtain ⟨-, -, rfl⟩ := hwalks
  rw [verdictOf_eq_fits_iff, Bindings.mk.injEq]
  refine and_congr (forall₂_congr fun key hkey => ?_) Iff.rfl
  exact (hkeys key).trans (and_iff_right hkey)

/-- On a line with nothing on it the empty assignment is accepted, if nothing has to be given. -/
theorem accepted_of_nothing_given (hoptional : ∀ child ∈ children, child.optional = true)
    (hwords : line.words.length = 0) (hflags : ∀ key, key ∉ line.flags.keys) :
    (∀ child ∈ children, Suits line.flags child) ∧
      ∃ counts, Accepted line true children 0 counts [] := by
  have hsuits : ∀ child ∈ children, Suits line.flags child := by
    intro child hchild key hkey
    refine ⟨fun value hvalue => ?_, fun _ => hoptional child hchild⟩
    exact absurd (FlagTable.mem_keys_iff.mpr (Option.isSome_of_eq_some hvalue)) (hflags key)
  refine ⟨hsuits, _, accepted_of_assigns (assigns_of_optional line.flags fun child hchild => ?_)
    trivial fun _ => hwords.symm⟩
  exact hoptional child (List.mem_filter.mp hchild).1

/-- A line fits a sequence of rigid elements and flags if the flags fit and the greatest assignment
that the search accepts takes all words. Otherwise the search has found another one or none. -/
theorem cases_of_parse (hplain : ∀ child ∈ children, Plain line child)
    (hread : Line.read (.whole source) = .ok line) :
    (FlagsFit children line.flags ∧ ∃ counts readings,
      Greatest line true children 0 counts readings ∧ readings.length = line.words.length ∧
        parse (Node.sequenceOf children false) source =
          .ok (some ⟨Reading.captures 0 readings ++ line.flags⟩)) ∨
    (parse (Node.sequenceOf children false) source = .ok none ∧
      (FlagsFit children line.flags →
        (∀ counts readings, ¬ Accepted line true children 0 counts readings) ∨
          ∃ counts readings, Greatest line true children 0 counts readings ∧
            readings.length < line.words.length)) := by
  have hfound := found_descend hplain true (Nat.zero_le _) {}
  unfold parse parseWindow
  rw [hread]
  simp only
  rw [judge_sequenceOf]
  generalize descend line.words.length true (children.map (slotOf line)) 0 {} = result at hfound ⊢
  rw [flagsFit_iff]
  cases hfound with
  | @upTo counts readings keys next after hgreatest hwalks hsuits hkeys =>
    have hnext := hwalks.next_eq
    have hwords := le_length_of_spells hwalks.spells (Nat.zero_le _)
    simp only
    by_cases hall : line.words.length ≤ next
    · rw [if_pos hall]
      by_cases hnamed : ∀ key ∈ line.flags.keys, ∃ node ∈ children, flagKey? node = some key
      · rw [(verdictOf_walks hwalks hkeys).mpr ⟨hnamed, rfl⟩]
        exact .inl ⟨⟨hsuits, hnamed⟩, counts, readings, hgreatest, by omega, rfl⟩
      · refine .inr ⟨?_, fun hfit => absurd hfit.2 hnamed⟩
        rw [bindings?_eq_none fun bindings hfits =>
          hnamed ((verdictOf_walks hwalks hkeys).mp hfits).1]
    · rw [if_neg hall]
      exact .inr ⟨rfl, fun _ => .inr ⟨counts, readings, hgreatest, by omega⟩⟩
  | refused hnone =>
    refine .inr ⟨?_, fun hfit => .inl (hnone hfit.1)⟩
    simp only
    by_cases hall : children.all Node.optional = true ∧ line.words.length = 0
    · rw [if_pos hall, bindings?_eq_none]
      -- without any flag the empty assignment would have been accepted
      intro bindings hfits
      have hflags : ∀ key, key ∉ line.flags.keys := fun key hkey => by
        cases (verdictOf_eq_fits_iff.mp hfits).1 key hkey
      obtain ⟨hsuits, counts, haccepted⟩ :=
        accepted_of_nothing_given (by simpa using hall.1) hall.2 hflags
      exact hnone hsuits counts [] haccepted
    · rw [if_neg hall]
      rfl

end Sequence

end Match

end Synopsis
