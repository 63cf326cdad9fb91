/-
Synopsis.Proofs.Match.Omission — usages that may be left out as a whole.

Whether the root of a tree is optional is asked when everything else is done: its
occurrences were tried, and their number is known (`Slot.exists_process_setOptional`). So a
root that is made optional changes nothing where it occurs. Where it does not occur, it
has taken no word and recorded nothing. It is left out then, and the line fits if there is
nothing else in it; a flag that was given would be one without a use. That the root was
tried without a flag being rejected is sure of a line without flags (`attempt_ne_barred_of_nil`).

Square brackets around a usage make its tree optional (`Usage.compile_brackets`).
-/
import Synopsis.Node.Equality
import Synopsis.Proofs.Match.Agreement
import Synopsis.Proofs.Match.LineEnd
import Synopsis.Proofs.Match.Totality
import Synopsis.Proofs.Usage.Concatenation
import Synopsis.Proofs.Usage.Recompiling

namespace Synopsis

/-! ## §1 Brackets around a usage -/

namespace Node

/-- It makes no difference whether a tree is made optional before or after its ambiguous sequences
are turned into choices. -/
theorem commit_setOptional (node : Node) :
    (node.setOptional true).commit = node.commit.setOptional true := by
  cases node with
  | sequence occ children =>
    show (Node.sequence ⟨true, occ.repeating⟩ children).commit = _
    rw [commit, commit]
    split
    · rfl
    · rfl
  | _ => rfl

end Node

namespace Usage

variable {usage : Text} {tree : Node}

/-- Square brackets make a usage optional, unless its last character keeps the bracket from being
read. -/
theorem compile_brackets {committing : Bool} (h : compile usage committing = .ok tree)
    (hlast : usage.getLast? ≠ some '\\') :
    compile ('[' :: (usage ++ [']'])) committing = .ok (tree.setOptional true) := by
  obtain ⟨written, hparse, rfl⟩ := map_eq_ok_iff.mp h
  clear h
  have hbrackets : parse ('[' :: (usage ++ [']'])) = .ok (written.setOptional true) := by
    obtain ⟨symbols, hreads, hmeans⟩ := exists_reads_of_parse hparse
    have hclose : Reads [']'] [.closing .square] := Reads.nil.single ']' rfl rfl
    have hinner := hreads.append hlast (keepsApart_cons (.inl rfl) _) hclose
    refine parse_of_reads (hinner.single '[' rfl rfl) ?_
    cases hempty : written.isEmpty with
    | false =>
      exact (Means.adds_bracket hmeans .square).means
        (by simpa [bracketed, Node.setOptional] using hempty)
    | true =>
      obtain rfl := (regular_of_parse hparse).eq_nothing hempty
      exact .group hmeans (.finish _ _)
  rw [compile, hbrackets]
  cases committing with
  | false => rfl
  | true => exact congrArg Except.ok written.commit_setOptional

end Usage

/-! ## §2 Slots that are made optional -/

namespace Match

open Line (Parsed)

namespace Slot

def withOptional (optional : Bool) (slot : Slot) : Slot :=
  { slot with occ := { slot.occ with optional := optional } }

section Occurrences

variable {slot : Slot} {total token next : Nat} {last : Bool} {limit : Option Nat}
  {memory after : Memory}

/-- The optional mark has no part in the occurrences. -/
theorem occurrences_withOptional (slot : Slot) (optional : Bool) (total token : Nat) (last : Bool)
    (limit : Option Nat) (memory : Memory) :
    (slot.withOptional optional).occurrences total token last limit memory =
      slot.occurrences total token last limit memory := by
  unfold occurrences withOptional
  rw [repeated_withOcc]
  rfl

/-- A slot that does not occur takes no word and records nothing. -/
theorem eq_of_occurrences_zero (h : slot.Lawful)
    (hnone : slot.occurrences total token last limit memory = (.reached next 0, after)) :
    next = token ∧ after.trail = memory.trail := by
  have hrefused {isLast : Bool} {result : Attempt} {found : Memory}
      (hattempt : slot.attempt token isLast memory = (result, found))
      (hresult : result = .refused ∨ result = .barred) : found.trail = memory.trail :=
    h.trail_eq hattempt hresult
  have honce (honce : slot.once token last memory = (.reached next 0, after)) :
      next = token ∧ after.trail = memory.trail := by
    unfold once at honce
    split at honce <;> cases honce
    rename_i hattempt
    exact ⟨rfl, hrefused hattempt (.inl rfl)⟩
  have hrepeated {rounds : Nat}
      (hnone : slot.repeated rounds token memory = (.reached next 0, after)) :
      next = token ∧ after.trail = memory.trail := by
    cases rounds with
    | zero =>
      cases hnone
      exact ⟨rfl, rfl⟩
    | succ rounds =>
      rw [repeated] at hnone
      cases hattempt : slot.attempt token false memory with
      | mk result found =>
        rw [hattempt] at hnone
        cases result with
        | refused =>
          cases hnone
          exact ⟨rfl, hrefused hattempt (.inl rfl)⟩
        | barred =>
          cases hnone
          exact ⟨rfl, hrefused hattempt (.inr rfl)⟩
        | fault => cases hnone
        | upTo middle =>
          -- there is an occurrence, and the others are counted with it
          simp only at hnone
          split at hnone
          · cases hnone
          · generalize slot.repeated rounds middle found = others at hnone
            obtain ⟨progress, _⟩ := others
            cases progress <;> cases hnone
  unfold occurrences at hnone
  split at hnone
  · split at hnone
    · cases hnone
    · exact hrepeated hnone
    · exact honce hnone
  · exact honce hnone

/-- Only what is barred fails before there is a word left over. -/
theorem occurrences_ne_failed
    (h : ∀ isLast, (slot.attempt token isLast memory).1 ≠ .barred) :
    (slot.occurrences total token last limit memory).1 ≠ .failed := by
  unfold occurrences
  split
  · split
    · simp
    · exact slot.repeated_ne_failed _ _ _
    · exact once_ne_failed (h last)
  · exact once_ne_failed (h last)

end Occurrences

end Slot

/-! ## §3 Trees that are made optional -/

section Lines

variable {tree : Node} {source : Text} {line : Parsed}

/-- Only a flag that was given is barred. -/
theorem attempt_ne_barred_of_nil (hflags : line.flags = []) (node : Node) (token : Nat) (last : Bool)
    (memory : Memory) : (attempt line node token last memory).1 ≠ .barred := by
  have hflag (key : Text) (accepts : Option Text → Bool) :
      (takeFlag line key accepts token memory.trail).1 ≠ .barred := by
    simp [takeFlag, hflags, FlagTable.get?]
  cases node with
  | flag => exact hflag _ _
  | setting => exact hflag _ _
  | literal => exact takeToken_ne_barred _ _ _
  | parameter => exact takeToken_ne_barred _ _ _
  | sequence =>
    rw [attempt_sequence, allOf_eq_descend]
    exact descend_ne_barred _ _ _ _ _
  | choice =>
    rw [attempt_choice]
    exact firstOf_ne_barred _ _ _ _ _
  | empty => exact Attempt.noConfusion
  | hole =>
    show (takeHole line token memory.trail).1 ≠ .barred
    unfold takeHole
    split <;> simp

/-- What stands for nothing cannot be made optional. -/
theorem slotOf_setOptional (hfilled : tree.isEmpty = false) (line : Parsed) (optional : Bool) :
    slotOf line (tree.setOptional optional) = (slotOf line tree).withOptional optional := by
  rw [Node.setOptional, slotOf_withOcc hfilled]
  rfl

def nothingGiven (line : Parsed) : Option Bindings :=
  if line.words = [] ∧ line.flags = [] then some ⟨[]⟩ else none

theorem verdictOf_of_nil (hflags : line.flags = []) (trail : Trail) :
    verdictOf line trail = .fits ⟨trail.captures⟩ := by
  simp [verdictOf, hflags, FlagTable.keys]

/-- A line of which nothing was recorded fits if it has no flags. -/
theorem bindings?_verdictOf_start (line : Parsed) {trail : Trail} (htrail : trail = {}) :
    (verdictOf line trail).bindings? = if line.flags = [] then some ⟨[]⟩ else none := by
  subst htrail
  split
  · rename_i hflags
    rw [verdictOf_of_nil hflags]
    rfl
  · rename_i hflags
    obtain ⟨⟨key, given⟩, flags, hcons⟩ := List.exists_cons_of_ne_nil hflags
    simp [verdictOf, hcons, FlagTable.keys, Verdict.bindings?]

/-- Where the line fits a tree it fits the tree made optional in the same way; where it does not, it
fits that if nothing is given. -/
theorem bindings?_judge_setOptional (hfilled : tree.isEmpty = false) {verdict verdict' : Verdict}
    (hjudge : judge tree line = .ok verdict)
    (hjudge' : judge (tree.setOptional true) line = .ok verdict') :
    verdict'.bindings? = verdict.bindings?.or (nothingGiven line) := by
  have hlawful := lawful_matcher line tree
  unfold judge process at hjudge hjudge'
  rw [slotOf_setOptional hfilled, Slot.process_eq_occurrences,
    Slot.occurrences_withOptional] at hjudge'
  rw [Slot.process_eq_occurrences] at hjudge
  cases hfound : (slotOf line tree).occurrences line.words.length 0 true none {} with
  | mk progress after =>
  rw [hfound] at hjudge hjudge'
  cases progress with
  | fault => cases hjudge
  | failed =>
    cases hjudge
    cases hjudge'
    have hflags : line.flags ≠ [] := fun hflags =>
      Slot.occurrences_ne_failed
        (fun isLast => attempt_ne_barred_of_nil hflags tree 0 isLast {}) (congrArg Prod.fst hfound)
    simp [nothingGiven, hflags, Verdict.bindings?]
  | reached next count =>
    by_cases hall : line.words.length ≤ next
    · have hsettle' : ((slotOf line tree).withOptional true).settle line.words.length true
          (.reached next count) = .reached next count :=
        Slot.settle_eq_reached_iff.mpr ⟨rfl, fun _ => rfl, fun _ => hall⟩
      simp only [hsettle'] at hjudge'
      cases hjudge'
      by_cases hoccurs : count = 0 → tree.optional = true
      · have hsettle : (slotOf line tree).settle line.words.length true
            (.reached next count) = .reached next count :=
          Slot.settle_eq_reached_iff.mpr ⟨rfl, hoccurs, fun _ => hall⟩
        simp only [hsettle] at hjudge
        cases hjudge
        by_cases hflags : line.flags = []
        · rw [verdictOf_of_nil hflags]
          rfl
        · simp [nothingGiven, hflags]
      · have hsettle : (slotOf line tree).settle line.words.length true
            (.reached next count) = .failed :=
          Slot.settle_eq_failed fun h => hoccurs h.1
        simp only [hsettle] at hjudge
        cases hjudge
        obtain rfl : count = 0 := by_contra fun h => hoccurs fun hcount => absurd hcount h
        obtain ⟨rfl, htrail⟩ := Slot.eq_of_occurrences_zero hlawful hfound
        have hwords : line.words = [] := List.length_eq_zero_iff.mp (Nat.le_zero.mp hall)
        rw [bindings?_verdictOf_start line htrail]
        simp [nothingGiven, hwords, Verdict.bindings?]
    · have hsettle (slot : Slot) : slot.settle line.words.length true
            (.reached next count) = .failed :=
        Slot.settle_eq_failed fun h => hall (h.2 rfl)
      simp only [hsettle] at hjudge hjudge'
      cases hjudge
      cases hjudge'
      have hwords : line.words ≠ [] := fun hwords => hall (by simp [hwords])
      simp [nothingGiven, hwords, Verdict.bindings?]

/-- Nothing has no marks to change, and it fits a line in which nothing is given. -/
theorem bindings?_judge_empty {occ : Occurrence} {verdict : Verdict}
    (hjudge : judge (.empty occ) line = .ok verdict) :
    verdict.bindings? = verdict.bindings?.or (nothingGiven line) := by
  by_cases hnothing : line.words = [] ∧ line.flags = []
  · obtain ⟨hwords, hflags⟩ := hnothing
    have honce : (slotOf line (.empty occ)).once 0 true {} = (.reached 0 1, {}) := rfl
    unfold judge process at hjudge
    rw [Slot.process_once fun _ => rfl, honce] at hjudge
    have hall : line.words.length ≤ 0 := by simp [hwords]
    have hsettle : (slotOf line (.empty occ)).settle line.words.length true (.reached 0 1) =
        .reached 0 1 := Slot.settle_eq_reached_iff.mpr ⟨rfl, by simp, fun _ => hall⟩
    simp only [hsettle] at hjudge
    cases hjudge
    rw [verdictOf_of_nil hflags]
    rfl
  · simp [nothingGiven, hnothing]

/-- **What making a whole usage optional does.** On a line that can be read, the tree made optional
finds what the tree finds, if that fits the line; if it does not, it finds nothing, unless there is
no word and no flag in the line: then it fits without binding anything. The tree made optional is the
one of the usage in square brackets, so these fit the same lines and the one in which nothing is
given. -/
theorem parse_setOptional {usage : Text} {committing : Bool}
    (husage : Usage.compile usage committing = .ok tree)
    (hread : Line.read (.whole source) = .ok line) :
    (∃ found, parse tree source = .ok found ∧
      parse (tree.setOptional true) source =
        .ok (found.or (if line.words = [] ∧ line.flags = [] then some ⟨[]⟩ else none))) ∧
    (usage.getLast? ≠ some '\\' →
      Usage.compile ('[' :: (usage ++ [']'])) committing = .ok (tree.setOptional true)) := by
  refine ⟨?_, Usage.compile_brackets husage⟩
  have hcomplete := Usage.isComplete_of_compile husage
  have hcomplete' : (tree.setOptional true).isComplete = true :=
    (Node.isComplete_withOcc _ tree).trans hcomplete
  obtain ⟨verdict, hjudge⟩ := exists_judge_eq_ok hcomplete hread
  obtain ⟨verdict', hjudge'⟩ := exists_judge_eq_ok hcomplete' hread
  refine ⟨verdict.bindings?, ?_, ?_⟩
  · rw [parse_eq_of_read hread, hjudge]
    rfl
  · have hbindings : verdict'.bindings? = verdict.bindings?.or (nothingGiven line) := by
      cases hempty : tree.isEmpty with
      | false => exact bindings?_judge_setOptional hempty hjudge hjudge'
      | true =>
        cases tree with
        | empty occ =>
          obtain rfl : verdict = verdict' := Except.ok.inj (hjudge.symm.trans hjudge')
          exact bindings?_judge_empty hjudge
        | _ => cases hempty
    rw [parse_eq_of_read hread, hjudge']
    exact congrArg Except.ok hbindings

/-- A repeating group, a line in which nothing is given, and one in which there is only a flag that
the group has a use for. -/
theorem parse_setOptional_copies :
    let mode : Node :=
      .setting ⟨true, false⟩ "mode".toList
        (.choice {} [.literal {} "a".toList, .literal {} "b".toList])
    let tree (optional : Bool) : Node := .sequence ⟨optional, true⟩ [.literal {} "cp".toList, mode]
    Usage.compile "(cp [--mode=(a | b)])...".toList false = .ok (tree false) ∧
      Usage.compile "[(cp [--mode=(a | b)])...]".toList false = .ok (tree true) ∧
      (parse (tree false) [] = .ok none ∧ parse (tree true) [] = .ok (some ⟨[]⟩)) ∧
      parse (tree false) "--mode=a".toList = .ok none ∧
      parse (tree true) "--mode=a".toList = .ok none := by
  intro mode tree
  have husage : Usage.compile "(cp [--mode=(a | b)])...".toList false = .ok (tree false) :=
    eq_ok_of_toOption (by decide +kernel)
  obtain ⟨empty, hempty, hnil⟩ := Option.map_eq_some_iff.mp
    (show (Line.read (.whole [])).toOption.map
      (fun line => line.words.isEmpty && line.flags.isEmpty) = some true by decide +kernel)
  obtain ⟨line, hline, hflags⟩ := Option.map_eq_some_iff.mp
    (show (Line.read (.whole "--mode=a".toList)).toOption.map (·.flags.isEmpty) = some false by
      decide +kernel)
  obtain ⟨⟨found, hfound, hnothing⟩, hbrackets⟩ :=
    parse_setOptional husage (eq_ok_of_toOption hempty)
  obtain ⟨⟨found', hfound', hflag⟩, -⟩ := parse_setOptional husage (eq_ok_of_toOption hline)
  have hnone : parse (tree false) [] = .ok none := eq_ok_of_toOption (by decide +kernel)
  have hnone' : parse (tree false) "--mode=a".toList = .ok none :=
    eq_ok_of_toOption (by decide +kernel)
  obtain rfl : found = none := Except.ok.inj (hfound.symm.trans hnone)
  obtain rfl : found' = none := Except.ok.inj (hfound'.symm.trans hnone')
  rw [if_pos (by simpa using hnil)] at hnothing
  rw [if_neg fun h => by simp [h.2] at hflags] at hflag
  exact ⟨husage, hbrackets (by decide), ⟨hnone, hnothing⟩, hnone', hflag⟩

end Lines

end Match

end Synopsis
