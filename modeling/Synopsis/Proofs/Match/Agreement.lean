/-
Synopsis.Proofs.Match.Agreement — lines that no tree can tell apart.

A tree sees the texts of the words of a line and, for each key, what was given for it.
Where a word stands on the line, between which flags, and in which order the flags were
given, is nothing to it. So lines that agree in these texts and flags are matched in the
same way (`process_eq_of_agrees`): they fit both or neither, their words have the same
readings, and only the flags are bound in the order of each line (`parse_of_agrees`).
-/
import Synopsis.Proofs.Line.Flags
import Synopsis.Proofs.Match.Soundness

namespace Synopsis

open Line (Parsed Word)

namespace Match

/-! ## §1 Lines that agree -/

/-- The words have the same texts, and under each key the same is given. -/
structure Agrees (line other : Parsed) : Prop where
  texts_eq : line.words.map Word.text = other.words.map Word.text
  get?_eq (key : Text) : line.flags.get? key = other.flags.get? key

section Matching

variable {line other : Parsed}

theorem agrees_of_texts {words : List Text} (hline : line.texts? = some words)
    (hother : other.texts? = some words)
    (hflags : ∀ key, line.flags.get? key = other.flags.get? key) : Agrees line other :=
  ⟨(map_eq_of_mapM hline).trans (map_eq_of_mapM hother).symm, hflags⟩

theorem Agrees.length_eq (h : Agrees line other) : line.words.length = other.words.length := by
  simpa using congrArg List.length h.texts_eq

theorem Agrees.getElem?_eq (h : Agrees line other) (token : Nat) :
    line.words[token]?.map Word.text = other.words[token]?.map Word.text := by
  rw [← List.getElem?_map, ← List.getElem?_map, h.texts_eq]

/-- The same keys are given. -/
theorem Agrees.mem_keys_iff (h : Agrees line other) (key : Text) :
    key ∈ line.flags.keys ↔ key ∈ other.flags.keys := by
  rw [FlagTable.mem_keys_iff, FlagTable.mem_keys_iff, h.get?_eq]

theorem takeToken_eq_of_agrees (h : Agrees line other) : takeToken line = takeToken other := by
  funext key passes token trail
  have hword := h.getElem?_eq token
  unfold takeToken
  cases hline : line.words[token]? with
  | none =>
    rw [hline] at hword
    rw [Option.map_eq_none_iff.mp hword.symm]
  | some word =>
    rw [hline] at hword
    obtain ⟨word', hother, htext⟩ := Option.map_eq_some_iff.mp hword.symm
    simp only [hother, htext]

theorem takeFlag_eq_of_agrees (h : Agrees line other) : takeFlag line = takeFlag other := by
  funext key accepts token trail
  rw [takeFlag, takeFlag, h.get?_eq]

theorem takeHole_eq_of_agrees (h : Agrees line other) : takeHole line = takeHole other := by
  funext token trail
  rw [takeHole, takeHole, h.length_eq]

/-- No node tells the lines apart. -/
theorem matcher_eq_of_agrees (h : Agrees line other) (node : Node) :
    matcher line node = matcher other node := by
  have hslots {nodes : List Node} (ih : ∀ node ∈ nodes, matcher line node = matcher other node) :
      slots line nodes = slots other nodes := by
    rw [slots_eq_map, slots_eq_map]
    exact List.map_congr_left fun node hnode => by rw [slotOf, slotOf, ih node hnode]
  induction node using Node.inductionOn with
  | literal occ name => rw [matcher, matcher, takeToken_eq_of_agrees h]
  | parameter occ name => rw [matcher, matcher, takeToken_eq_of_agrees h]
  | flag occ key => rw [matcher, matcher, takeFlag_eq_of_agrees h]
  | setting occ key value _ => rw [matcher, matcher, takeFlag_eq_of_agrees h]
  | sequence occ children ih => rw [matcher, matcher, hslots ih, h.length_eq]
  | choice occ alternatives ih => rw [matcher, matcher, hslots ih, h.length_eq]
  | empty occ => rw [matcher, matcher]
  | hole occ => rw [matcher, matcher, takeHole_eq_of_agrees h]

theorem process_eq_of_agrees (h : Agrees line other) (node : Node) :
    process line node = process other node := by
  funext token last limit memory
  rw [process, process, slotOf, slotOf, matcher_eq_of_agrees h, h.length_eq]

/-- Lines that agree and have the same table get the same verdict. -/
theorem judge_eq_of_agrees (h : Agrees line other) (hflags : line.flags = other.flags)
    (tree : Node) : judge tree line = judge tree other := by
  have hverdict (trail : Trail) : verdictOf line trail = verdictOf other trail := by
    rw [verdictOf, verdictOf, hflags]
  unfold judge
  simp only [process_eq_of_agrees h, hverdict]

end Matching

/-! ## §2 What is found in lines that agree -/

/-- What a line with these flags binds if its words have these readings. -/
def bindingsOf (readings : List Reading) (flags : FlagTable) : Bindings :=
  ⟨Reading.captures 0 readings ++ flags⟩

/-- Flags are bound if all of them were admitted. -/
theorem bindings?_verdictOf (line : Parsed) (trail : Trail) :
    (verdictOf line trail).bindings? =
      if ∀ key ∈ line.flags.keys, key ∈ trail.admitted then some ⟨trail.captures ++ line.flags⟩
      else none := by
  split
  · rename_i hall
    exact bindings?_eq_some_iff.mpr (verdictOf_eq_fits_iff.mpr ⟨hall, rfl⟩)
  · rename_i hstray
    refine Option.eq_none_iff_forall_ne_some.mpr fun bindings hsome => hstray ?_
    exact (verdictOf_eq_fits_iff.mp (bindings?_eq_some_iff.mp hsome)).1

section Lines

variable {line other : Parsed}

/-- The words of a line that fits have readings, and these are what was recorded of them. -/
theorem exists_readings_of_judge {tree : Node} {captures : List Capture}
    (h : judge tree line = .ok (.fits ⟨captures ++ line.flags⟩)) :
    ∃ readings, captures = Reading.captures 0 readings ∧
      line.texts? = some (readings.map Reading.word) := by
  obtain ⟨words, htexts, readings, keys, -, rfl, -, hcaptures⟩ := derivesLine_of_judge h
  exact ⟨readings, List.append_cancel_right hcaptures, htexts⟩

/-- Lines that agree get the same verdict, and if they fit, their words have the same readings. -/
theorem judge_of_agrees (h : Agrees line other) (tree : Node) :
    ∃ found : Except Fault (Option (List Reading)),
      (judge tree line).map Verdict.bindings? = found.map (·.map (bindingsOf · line.flags)) ∧
      (judge tree other).map Verdict.bindings? = found.map (·.map (bindingsOf · other.flags)) ∧
      ∀ readings, found = .ok (some readings) →
        line.texts? = some (readings.map Reading.word) := by
  unfold judge
  rw [← process_eq_of_agrees h]
  generalize hprocess : process line tree 0 true none {} = processed
  obtain ⟨progress, after⟩ := processed
  cases progress with
  | fault fault => exact ⟨.error fault, rfl, rfl, by simp⟩
  | failed => exact ⟨.ok none, rfl, rfl, by simp⟩
  | reached next count =>
    have hother := bindings?_verdictOf other after.trail
    simp only [← h.mem_keys_iff] at hother
    by_cases hall : ∀ key ∈ line.flags.keys, key ∈ after.trail.admitted
    · have hfits : judge tree line = .ok (.fits ⟨after.trail.captures ++ line.flags⟩) := by
        rw [judge, hprocess]
        exact congrArg Except.ok (verdictOf_eq_fits_iff.mpr ⟨hall, rfl⟩)
      obtain ⟨readings, hcaptures, htexts⟩ := exists_readings_of_judge hfits
      refine ⟨.ok (some readings), ?_, ?_, ?_⟩
      · simp only [Except.map, bindings?_verdictOf, if_pos hall, hcaptures]
        rfl
      · simp only [Except.map, hother, if_pos hall, hcaptures]
        rfl
      · intro readings' heq
        cases heq
        exact htexts
    · refine ⟨.ok none, ?_, ?_, by simp⟩
      · simp only [Except.map, bindings?_verdictOf, if_neg hall]
        rfl
      · simp only [Except.map, hother, if_neg hall]
        rfl

end Lines

section Sources

variable {line other : Parsed} {source source' : Text}

/-- What is found about a line that was read. -/
theorem parse_eq_of_read (hread : Line.read (.whole source) = .ok line) (tree : Node) :
    parse tree source = ((judge tree line).map Verdict.bindings?).mapError .fault := by
  unfold parse parseWindow
  rw [hread]
  simp only
  cases judge tree line with
  | error fault => rfl
  | ok verdict => rfl

/-- Lines that agree fit both or neither, and only their flags may be bound in another order. -/
theorem parse_of_agrees (h : Agrees line other) (hread : Line.read (.whole source) = .ok line)
    (hread' : Line.read (.whole source') = .ok other) (tree : Node) :
    ∃ found : Except LineFailure (Option (List Reading)),
      parse tree source = found.map (·.map (bindingsOf · line.flags)) ∧
      parse tree source' = found.map (·.map (bindingsOf · other.flags)) ∧
      ∀ readings, found = .ok (some readings) →
        line.texts? = some (readings.map Reading.word) := by
  obtain ⟨found, hline, hother, htexts⟩ := judge_of_agrees h tree
  refine ⟨found.mapError .fault, ?_, ?_, fun readings heq => htexts readings ?_⟩
  · rw [parse_eq_of_read hread, hline]
    cases found <;> rfl
  · rw [parse_eq_of_read hread', hother]
    cases found <;> rfl
  · cases found with
    | error fault => cases heq
    | ok found => cases heq; rfl

/-- Lines that agree and have the flags in the same order cannot be told apart. -/
theorem parse_eq_of_agrees (h : Agrees line other) (hflags : line.flags = other.flags)
    (hread : Line.read (.whole source) = .ok line)
    (hread' : Line.read (.whole source') = .ok other) (tree : Node) :
    parse tree source = parse tree source' := by
  obtain ⟨found, hline, hother, -⟩ := parse_of_agrees h hread hread' tree
  rw [hline, hother, hflags]

end Sources

end Match

end Synopsis
