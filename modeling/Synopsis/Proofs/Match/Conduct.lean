/-
Synopsis.Proofs.Match.Conduct — how a matcher treats what is remembered.

A matcher is lawful if it only adds to the trail, takes back what it added when
it does not match, and does the same whatever stands on the stack. Matching a slot
as often as its marks allow (`Slot.process`) and trying several slots in turn
(`firstOf`) inherit this from the slots. Nothing is said here about sequences: the
search they make is the subject of `Synopsis.Proofs.Match.Descent`.
-/
import Synopsis.Match.Node

namespace Synopsis

namespace Match

/-! ## §1 Another stack -/

namespace Memory

/-- The same trail above another stack. -/
def withStack (memory : Memory) (stack : List Retry) : Memory := { memory with stack := stack }

@[simp] theorem trail_withStack (memory : Memory) (stack : List Retry) :
    (memory.withStack stack).trail = memory.trail := rfl

@[simp] theorem stack_withStack (memory : Memory) (stack : List Retry) :
    (memory.withStack stack).stack = stack := rfl

@[simp] theorem withStack_self (memory : Memory) : memory.withStack memory.stack = memory := rfl

@[simp] theorem withStack_withStack (memory : Memory) (stack stack' : List Retry) :
    (memory.withStack stack).withStack stack' = memory.withStack stack' := rfl

@[simp] theorem cutTo_withStack (memory : Memory) (mark : Mark) (stack : List Retry) :
    (memory.withStack stack).cutTo mark = (memory.cutTo mark).withStack stack := rfl

end Memory

def onStack {α : Type} (stack : List Retry) (result : α × Memory) : α × Memory :=
  (result.1, result.2.withStack stack)

@[simp] theorem onStack_mk {α : Type} (stack : List Retry) (a : α) (memory : Memory) :
    onStack stack (a, memory) = (a, memory.withStack stack) := rfl

/-! ## §2 Lawful matchers -/

namespace Matcher

/-- The matcher goes on from the trail it is given, leaves it alone if it does not match, and
does not look at the stack. -/
structure Lawful (matcher : Matcher) : Prop where
  trail_extends (token : Nat) (last : Bool) (memory : Memory) :
    (matcher.attempt token last memory).2.trail.Extends memory.trail
  trail_eq {token : Nat} {last : Bool} {memory after : Memory} {result : Attempt}
    (h : matcher.attempt token last memory = (result, after))
    (hresult : result = .refused ∨ result = .barred) : after.trail = memory.trail
  attempt_withStack (token : Nat) (last : Bool) (memory : Memory) (stack : List Retry) :
    matcher.attempt token last (memory.withStack stack) =
      onStack stack (matcher.attempt token last memory)

/-- A matcher that makes no decisions is lawful if it treats the trail lawfully. -/
theorem lawful_ofTrail {attempt : Nat → Trail → Attempt × Trail}
    (hextends : ∀ token trail, (attempt token trail).2.Extends trail)
    (heq : ∀ token trail, (attempt token trail).1 = .refused ∨ (attempt token trail).1 = .barred →
      (attempt token trail).2 = trail) : (ofTrail attempt).Lawful where
  trail_extends token _ memory := hextends token memory.trail
  trail_eq := by
    intro token last memory after result h hresult
    cases h
    exact heq token memory.trail hresult
  attempt_withStack _ _ _ _ := rfl

end Matcher

theorem lawful_takeToken (line : Line.Parsed) (key : Nat → Text) (passes : Text → Bool) :
    (Matcher.ofTrail fun token => takeToken line (key token) passes token).Lawful := by
  apply Matcher.lawful_ofTrail
  · intro token trail
    unfold takeToken
    split
    · exact .refl _
    · split
      · exact .refl _
      · split
        · exact trail.extends_capture _ _
        · exact .refl _
  · intro token trail h
    unfold takeToken at h ⊢
    split
    · rfl
    · split
      · rfl
      · split <;> simp_all

theorem lawful_takeFlag (line : Line.Parsed) (key : Text) (accepts : Option Text → Bool) :
    (Matcher.ofTrail (takeFlag line key accepts)).Lawful := by
  apply Matcher.lawful_ofTrail
  · intro token trail
    unfold takeFlag
    split
    · exact .refl _
    · split
      · exact trail.extends_allow _
      · exact .refl _
  · intro token trail h
    unfold takeFlag at h ⊢
    split
    · rfl
    · split <;> simp_all

theorem lawful_takeHole (line : Line.Parsed) : (Matcher.ofTrail (takeHole line)).Lawful := by
  apply Matcher.lawful_ofTrail
  · intro token trail
    unfold takeHole
    split <;> exact .refl _
  · intro token trail h
    unfold takeHole
    split <;> rfl

theorem lawful_nothing : (Matcher.ofTrail fun token trail => (.upTo token, trail)).Lawful :=
  Matcher.lawful_ofTrail (fun _ _ => .refl _) (fun _ _ _ => rfl)

/-! ## §3 Slots -/

namespace Slot

variable {slot : Slot}

/-- Settling fails an element that is missing, or that is the last one and leaves words over. -/
theorem settle_eq_reached_iff {total token count : Nat} {last : Bool} {progress : Progress} :
    slot.settle total last progress = .reached token count ↔
      progress = .reached token count ∧ (count = 0 → slot.occ.optional = true) ∧
        (last = true → total ≤ token) := by
  constructor
  · intro h
    obtain rfl := settle_eq_reached h
    refine ⟨rfl, ?_, ?_⟩ <;> simp only [settle] at h
    · intro hcount
      by_cases hoptional : slot.occ.optional = true
      · exact hoptional
      · simp [hcount, hoptional] at h
    · intro hlast
      split at h
      · cases h
      · split at h
        · cases h
        · rename_i hleft
          simpa [hlast] using hleft
  · rintro ⟨rfl, hcount, hlast⟩
    simp only [settle]
    rw [if_neg, if_neg]
    · rintro ⟨h, hlt⟩
      exact absurd (hlast h) (Nat.not_le.mpr hlt)
    · rintro ⟨h, hfalse⟩
      rw [hcount h] at hfalse
      cases hfalse

/-- An optional slot that is matched fails only if it leaves words over that it has to take. -/
theorem settle_of_optional (h : slot.occ.optional = true) (total token count : Nat) (last : Bool) :
    slot.settle total last (.reached token count) =
      if last ∧ token < total then .failed else .reached token count := by
  simp [settle, h]

/-- Settling either keeps an element that was matched or fails it. -/
theorem settle_eq_failed {total token count : Nat} {last : Bool}
    (h : ¬ ((count = 0 → slot.occ.optional = true) ∧ (last = true → total ≤ token))) :
    slot.settle total last (.reached token count) = .failed := by
  simp only [settle]
  split
  · rfl
  · rename_i hmissing
    split
    · rfl
    · rename_i hover
      refine absurd ⟨fun hcount => ?_, fun hlast => ?_⟩ h
      · simpa [hcount] using hmissing
      · simpa [hlast] using hover

/-- The occurrences of a slot, before it is asked whether there are enough of them. -/
def occurrences (slot : Slot) (total token : Nat) (last : Bool) (limit : Option Nat)
    (memory : Memory) : Progress × Memory :=
  if slot.occ.repeating then
    match slot.positional? with
    | none => (.fault .undetermined, memory)
    | some true => slot.repeated (rounds total token limit) token memory
    | some false => slot.once token last memory
  else slot.once token last memory

theorem process_eq_occurrences (slot : Slot) (total token : Nat) (last : Bool) (limit : Option Nat)
    (memory : Memory) :
    slot.process total token last limit memory =
      (slot.settle total last (slot.occurrences total token last limit memory).1,
        (slot.occurrences total token last limit memory).2) := rfl

/-- A repeating positional slot is matched again and again. -/
theorem process_repeating (hrepeating : slot.occ.repeating = true)
    (hpositional : slot.positional? = some true) (total token : Nat) (last : Bool)
    (limit : Option Nat) (memory : Memory) :
    slot.process total token last limit memory =
      (slot.settle total last (slot.repeated (rounds total token limit) token memory).1,
        (slot.repeated (rounds total token limit) token memory).2) := by
  simp [process, hrepeating, hpositional]

/-- Any other slot is matched at most once. -/
theorem process_once (h : slot.occ.repeating = true → slot.positional? = some false)
    (total token : Nat) (last : Bool) (limit : Option Nat) (memory : Memory) :
    slot.process total token last limit memory =
      (slot.settle total last (slot.once token last memory).1,
        (slot.once token last memory).2) := by
  by_cases hrepeating : slot.occ.repeating = true
  · simp [process, hrepeating, h hrepeating]
  · simp [process, hrepeating]

/-- How a slot that was matched was matched. -/
theorem cases_of_process {total token next count : Nat} {last : Bool} {limit : Option Nat}
    {memory after : Memory}
    (h : slot.process total token last limit memory = (.reached next count, after)) :
    (slot.occ.repeating = true ∧ slot.positional? = some true ∧
      slot.repeated (rounds total token limit) token memory = (.reached next count, after)) ∨
    slot.once token last memory = (.reached next count, after) := by
  unfold process at h
  simp only [Prod.mk.injEq] at h
  have hsettled := settle_eq_reached h.1
  split at h
  · rename_i hrepeating
    rw [if_pos hrepeating] at hsettled
    split at hsettled
    · cases hsettled
    · rename_i hpositional
      rw [hpositional] at h
      exact .inl ⟨hrepeating, hpositional, Prod.ext hsettled h.2⟩
    · rename_i hpositional
      rw [hpositional] at h
      exact .inr (Prod.ext hsettled h.2)
  · rename_i hrepeating
    rw [if_neg hrepeating] at hsettled
    exact .inr (Prod.ext hsettled h.2)

/-- A slot that was matched occurs unless it is optional, and takes all words if it has to. -/
theorem settled_of_process {total token next count : Nat} {last : Bool} {limit : Option Nat}
    {memory after : Memory}
    (h : slot.process total token last limit memory = (.reached next count, after)) :
    (count = 0 → slot.occ.optional = true) ∧ (last = true → total ≤ next) := by
  unfold process at h
  exact (settle_eq_reached_iff.mp (Prod.mk.inj h).1).2

theorem trail_extends_once (h : slot.Lawful) (token : Nat) (last : Bool) (memory : Memory) :
    (slot.once token last memory).2.trail.Extends memory.trail := by
  have hextends := h.trail_extends token last memory
  unfold once
  split <;> simp_all

theorem once_withStack (h : slot.Lawful) (token : Nat) (last : Bool) (memory : Memory)
    (stack : List Retry) :
    slot.once token last (memory.withStack stack) =
      onStack stack (slot.once token last memory) := by
  unfold once
  rw [h.attempt_withStack]
  generalize slot.attempt token last memory = result
  obtain ⟨attempt, after⟩ := result
  cases attempt <;> rfl

theorem trail_extends_repeated (h : slot.Lawful) (rounds token : Nat) (memory : Memory) :
    (slot.repeated rounds token memory).2.trail.Extends memory.trail := by
  induction rounds generalizing token memory with
  | zero => exact .refl _
  | succ rounds ih =>
    have hextends := h.trail_extends token false memory
    unfold repeated
    split
    · rename_i next after hattempt
      rw [hattempt] at hextends
      split
      · exact hextends
      · exact (ih next after).trans hextends
    · simp_all
    · simp_all

/-- The marks have no part in a repetition. -/
theorem repeated_withOcc (slot : Slot) (occ : Occurrence) (rounds token : Nat) (memory : Memory) :
    ({ slot with occ := occ } : Slot).repeated rounds token memory =
      slot.repeated rounds token memory := by
  induction rounds generalizing token memory with
  | zero => rfl
  | succ rounds ih =>
    simp only [repeated, ih]

theorem repeated_withStack (h : slot.Lawful) (rounds token : Nat) (memory : Memory)
    (stack : List Retry) :
    slot.repeated rounds token (memory.withStack stack) =
      onStack stack (slot.repeated rounds token memory) := by
  induction rounds generalizing token memory with
  | zero => rfl
  | succ rounds ih =>
    unfold repeated
    rw [h.attempt_withStack]
    generalize slot.attempt token false memory = result
    obtain ⟨attempt, after⟩ := result
    cases attempt with
    | upTo next =>
      simp only [onStack_mk]
      split
      · rfl
      · rw [ih]; rfl
    | refused => rfl
    | barred => rfl
    | fault fault => rfl

/-- Matching a lawful slot only adds to the trail, also when it fails. -/
theorem trail_extends_process (h : slot.Lawful) (total token : Nat) (last : Bool)
    (limit : Option Nat) (memory : Memory) :
    (slot.process total token last limit memory).2.trail.Extends memory.trail := by
  unfold process
  simp only
  split
  · split
    · exact .refl _
    · exact trail_extends_repeated h _ _ _
    · exact trail_extends_once h _ _ _
  · exact trail_extends_once h _ _ _

/-- A lawful slot is matched in the same way whatever stands on the stack. -/
theorem process_withStack (h : slot.Lawful) (total token : Nat) (last : Bool) (limit : Option Nat)
    (memory : Memory) (stack : List Retry) :
    slot.process total token last limit (memory.withStack stack) =
      onStack stack (slot.process total token last limit memory) := by
  unfold process
  simp only
  split
  · split
    · rfl
    · rw [repeated_withStack h]; rfl
    · rw [once_withStack h]; rfl
  · rw [once_withStack h]; rfl

end Slot

/-! ## §4 Choices -/

theorem trail_extends_firstOf {slots : List Slot} (h : ∀ slot ∈ slots, slot.Lawful)
    (total token : Nat) (last : Bool) (memory : Memory) :
    (firstOf total token last memory slots).2.trail.Extends memory.trail := by
  induction slots generalizing memory with
  | nil => exact .refl _
  | cons slot slots ih =>
    have hextends := Slot.trail_extends_process (h slot (by simp)) total token last none memory
    unfold firstOf
    split
    · rename_i hprocess
      rwa [hprocess] at hextends
    · rename_i hprocess
      rwa [hprocess] at hextends
    · rename_i after hprocess
      rw [hprocess] at hextends
      have hcut : (after.cutTo memory.trail.mark).trail = memory.trail := hextends.cutTo_mark
      have := ih (fun s hs => h s (by simp [hs])) (after.cutTo memory.trail.mark)
      rwa [hcut] at this

theorem trail_of_firstOf {slots : List Slot} (h : ∀ slot ∈ slots, slot.Lawful) {total token : Nat}
    {last : Bool} {memory after : Memory} {result : Attempt}
    (hfirst : firstOf total token last memory slots = (result, after))
    (hresult : result = .refused ∨ result = .barred) : after.trail = memory.trail := by
  induction slots generalizing memory with
  | nil => cases hfirst; rfl
  | cons slot slots ih =>
    have hextends := Slot.trail_extends_process (h slot (by simp)) total token last none memory
    unfold firstOf at hfirst
    split at hfirst
    · cases hfirst; simp at hresult
    · cases hfirst; simp at hresult
    · rename_i cut hprocess
      rw [hprocess] at hextends
      rw [ih (fun s hs => h s (by simp [hs])) hfirst]
      exact hextends.cutTo_mark

theorem firstOf_withStack {slots : List Slot} (h : ∀ slot ∈ slots, slot.Lawful)
    (total token : Nat) (last : Bool) (memory : Memory) (stack : List Retry) :
    firstOf total token last (memory.withStack stack) slots =
      onStack stack (firstOf total token last memory slots) := by
  induction slots generalizing memory with
  | nil => rfl
  | cons slot slots ih =>
    unfold firstOf
    rw [Slot.process_withStack (h slot (by simp))]
    generalize slot.process total token last none memory = result
    obtain ⟨progress, after⟩ := result
    cases progress with
    | reached next count => rfl
    | fault fault => rfl
    | failed => exact ih (fun s hs => h s (by simp [hs])) (after.cutTo memory.trail.mark)

theorem lawful_choice {slots : List Slot} (h : ∀ slot ∈ slots, slot.Lawful) (total : Nat) :
    (Matcher.choice total slots).Lawful where
  trail_extends token last memory := trail_extends_firstOf h total token last memory
  trail_eq := trail_of_firstOf h
  attempt_withStack token last memory stack := firstOf_withStack h total token last memory stack

end Match

end Synopsis
