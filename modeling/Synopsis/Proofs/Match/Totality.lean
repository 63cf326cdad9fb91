/-
Synopsis.Proofs.Match.Totality — matching always comes to an end with a verdict.

A slot is total if it is known whether it is positional and no attempt to match it ends in a
fault. Matching a total slot with its marks does not end in a fault either, and neither does
a choice or a sequence of such slots. So every complete tree comes to a verdict on every
line whose words have texts (`exists_judge_eq_ok`), and a whole line is malformed, fits or
does not fit (`exists_parse_eq_ok`, `cases_of_parse_whole`).
-/
import Synopsis.Proofs.Line.Whole
import Synopsis.Proofs.Match.Soundness
import Synopsis.Proofs.Node.Completeness

namespace Synopsis

namespace Match

open Line (Parsed)

/-! ## §1 Slots that come to an end -/

/-- It is known of the slot whether it is positional, and no attempt to match it ends in a fault. -/
structure Slot.Total (slot : Slot) : Prop where
  decided : ∃ positional, slot.positional? = some positional
  attempt_ne_fault (token : Nat) (last : Bool) (memory : Memory) (fault : Fault) :
    (slot.attempt token last memory).1 ≠ .fault fault

namespace Slot

variable {slot : Slot}

theorem once_ne_fault (h : slot.Total) (token : Nat) (last : Bool) (memory : Memory)
    (fault : Fault) : (slot.once token last memory).1 ≠ .fault fault := by
  have hattempt := h.attempt_ne_fault token last memory
  unfold once
  split
  · simp
  · simp
  · simp
  · rename_i hfault
    exact absurd (congrArg Prod.fst hfault) (hattempt _)

/-- The induction is on the rounds: each of them is an attempt. -/
theorem repeated_ne_fault (h : slot.Total) (rounds token : Nat) (memory : Memory) (fault : Fault) :
    (slot.repeated rounds token memory).1 ≠ .fault fault := by
  induction rounds generalizing token memory with
  | zero => simp [repeated]
  | succ rounds ih =>
    have hattempt := h.attempt_ne_fault token false memory
    unfold repeated
    split
    · rename_i next after _
      split
      · simp
      · have ih := ih next after
        generalize slot.repeated rounds next after = rest at ih
        obtain ⟨progress, memory'⟩ := rest
        cases progress with
        | failed => simp [Progress.another]
        | reached next' count => simp [Progress.another]
        | fault fault' => simpa [Progress.another] using ih
    · rename_i hfault
      exact absurd (congrArg Prod.fst hfault) (hattempt _)
    · simp

theorem settle_ne_fault {progress : Progress} {fault : Fault} (h : progress ≠ .fault fault)
    (total : Nat) (last : Bool) : slot.settle total last progress ≠ .fault fault := by
  cases progress with
  | failed => simp [settle]
  | reached next count =>
    simp only [settle]
    split
    · simp
    · split <;> simp
  | fault fault' => simpa [settle] using h

/-- Matching a total slot with its marks does not end in a fault. -/
theorem process_ne_fault (h : slot.Total) (total token : Nat) (last : Bool) (limit : Option Nat)
    (memory : Memory) (fault : Fault) :
    (slot.process total token last limit memory).1 ≠ .fault fault := by
  obtain ⟨positional, hpositional⟩ := h.decided
  by_cases hrepeated : slot.occ.repeating = true ∧ positional = true
  · obtain ⟨hrepeating, rfl⟩ := hrepeated
    rw [process_repeating hrepeating hpositional]
    exact settle_ne_fault (repeated_ne_fault h _ _ _ fault) total last
  · have honce : slot.occ.repeating = true → slot.positional? = some false := by
      intro hrepeating
      simpa [hrepeating, hpositional] using hrepeated
    rw [process_once honce]
    exact settle_ne_fault (once_ne_fault h _ _ _ fault) total last

end Slot

theorem firstOf_ne_fault {slots : List Slot} (h : ∀ slot ∈ slots, slot.Total) (total token : Nat)
    (last : Bool) (memory : Memory) (fault : Fault) :
    (firstOf total token last memory slots).1 ≠ .fault fault := by
  induction slots generalizing memory with
  | nil => simp [firstOf]
  | cons slot slots ih =>
    have hslot := Slot.process_ne_fault (h slot (by simp)) total token last none memory
    rw [firstOf]
    split
    · simp
    · rename_i hfault
      exact absurd (congrArg Prod.fst hfault) (hslot _)
    · exact ih (fun other hother => h other (by simp [hother])) _

/-- Every resort of the recursion is to match a slot or to go on without it. -/
theorem descend_ne_fault {slots : List Slot} (h : ∀ slot ∈ slots, slot.Total) (total : Nat)
    (last : Bool) (token : Nat) (memory : Memory) (fault : Fault) :
    (descend total last slots token memory).1 ≠ .fault fault := by
  induction slots generalizing token memory with
  | nil => simp [descend]
  | cons slot slots ih =>
    have ih := fun token memory =>
      @ih (fun other hother => h other (by simp [hother])) token memory
    have hbehind (isLast : Bool) (limit : Option Nat) :
        (behind memory (descend total last slots)
          (slot.process total token isLast limit memory)).1 ≠ .fault fault := by
      have hslot := Slot.process_ne_fault (h slot (by simp)) total token isLast limit memory
      generalize slot.process total token isLast limit memory = found at hslot
      obtain ⟨progress, after⟩ := found
      cases progress with
      | failed => simp [behind]
      | reached next count => exact ih next after
      | fault fault' => exact absurd rfl (hslot fault')
    obtain ⟨positional, hpositional⟩ := (h slot (by simp)).decided
    unfold descend
    split
    · rename_i hnone
      simp only [Slot.omissible?, hpositional] at hnone
      split at hnone <;> cases hnone
    · simp only
      refine orTry_cases (P := fun result => result.1 ≠ .fault fault) (hbehind _ _) ?_
      refine orTry_cases (P := fun result => result.1 ≠ .fault fault) ?_ ?_
      · exact fewer_cases (P := fun result => result.1 ≠ .fault fault) (by simp)
          (fun limit => hbehind _ _) _
      · split
        · exact ih token memory
        · simp

/-! ## §2 Complete trees -/

section Trees

variable {line : Parsed}

theorem takeToken_ne_fault (h : ∀ word ∈ line.words, word.text.isSome = true) (key : Text)
    (passes : Text → Bool) (token : Nat) (trail : Trail) (fault : Fault) :
    (takeToken line key passes token trail).1 ≠ .fault fault := by
  unfold takeToken
  split
  · simp
  · rename_i word hword
    have htext := h word (List.mem_of_getElem? hword)
    split
    · rename_i hnone
      rw [hnone] at htext
      cases htext
    · split <;> simp

theorem takeFlag_ne_fault (key : Text) (accepts : Option Text → Bool) (token : Nat) (trail : Trail)
    (fault : Fault) : (takeFlag line key accepts token trail).1 ≠ .fault fault := by
  unfold takeFlag
  split
  · simp
  · split <;> simp

/-- A complete tree is matched or it is not, and there is no third possibility. -/
theorem total_slotOf (h : ∀ word ∈ line.words, word.text.isSome = true) {node : Node}
    (hcomplete : node.isComplete = true) : (slotOf line node).Total := by
  have hdecided {node : Node} (hcomplete : node.isComplete = true) :
      ∃ positional, (slotOf line node).positional? = some positional :=
    ⟨_, Node.isDecided_of_isComplete hcomplete⟩
  induction node using Node.inductionOn with
  | literal occ name =>
    refine ⟨hdecided hcomplete, fun token last memory fault => ?_⟩
    exact takeToken_ne_fault h _ _ token memory.trail fault
  | parameter occ name =>
    refine ⟨hdecided hcomplete, fun token last memory fault => ?_⟩
    exact takeToken_ne_fault h _ _ token memory.trail fault
  | flag occ key =>
    refine ⟨hdecided hcomplete, fun token last memory fault => ?_⟩
    exact takeFlag_ne_fault key _ token memory.trail fault
  | setting occ key value _ =>
    refine ⟨hdecided hcomplete, fun token last memory fault => ?_⟩
    exact takeFlag_ne_fault key _ token memory.trail fault
  | sequence occ children ih =>
    refine ⟨hdecided hcomplete, fun token last memory fault => ?_⟩
    show (attempt line (.sequence occ children) token last memory).1 ≠ .fault fault
    rw [attempt_sequence, allOf_eq_descend]
    have hchildren := Node.areComplete_iff.mp hcomplete
    refine descend_ne_fault ?_ _ last token memory fault
    exact List.forall_mem_map.mpr fun child hchild => ih child hchild (hchildren child hchild)
  | choice occ alternatives ih =>
    refine ⟨hdecided hcomplete, fun token last memory fault => ?_⟩
    show (firstOf line.words.length token last memory (slots line alternatives)).1 ≠ .fault fault
    rw [slots_eq_map]
    have halternatives := Node.areComplete_iff.mp hcomplete
    refine firstOf_ne_fault ?_ _ token last memory fault
    exact List.forall_mem_map.mpr fun other hother => ih other hother (halternatives other hother)
  | empty occ =>
    refine ⟨hdecided hcomplete, fun token last memory fault => ?_⟩
    simp [slotOf, matcher, Matcher.ofTrail]
  | hole occ => cases hcomplete

end Trees

/-! ## §3 Lines -/

section Lines

variable {tree : Node} {source : Text} {line : Parsed}

/-- A complete tree comes to a verdict on a whole line. -/
theorem exists_judge_eq_ok (h : tree.isComplete = true)
    (hread : Line.read (.whole source) = .ok line) : ∃ verdict, judge tree line = .ok verdict := by
  have htree := total_slotOf (Line.isSome_text_of_read_whole hread) h
  exact exists_judge_eq_ok_iff.mpr fun fault =>
    Slot.process_ne_fault htree line.words.length 0 true none {} fault

/-- A complete tree fits a line that was read, or it does not. -/
theorem exists_parse_eq_ok (h : tree.isComplete = true)
    (hread : Line.read (.whole source) = .ok line) : ∃ found, parse tree source = .ok found := by
  obtain ⟨verdict, hjudge⟩ := exists_judge_eq_ok h hread
  exact ⟨verdict.bindings?, (parse_eq_ok_iff hread).mpr ⟨verdict, hjudge, rfl⟩⟩

/-- A line is malformed, or a complete tree fits it, or it does not. -/
theorem cases_of_parse_whole (h : tree.isComplete = true) (source : Text) :
    (∃ error, parse tree source = .error (.malformed error)) ∨
      ∃ found, parse tree source = .ok found := by
  cases hread : Line.read (.whole source) with
  | error failure =>
    cases failure with
    | fault fault => exact absurd hread (Line.read_whole_ne_fault source fault)
    | malformed error => exact .inl ⟨error, by simp [parse, parseWindow, hread]⟩
  | ok line => exact .inr (exists_parse_eq_ok h hread)

end Lines

end Match

end Synopsis
