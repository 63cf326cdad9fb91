/-
Synopsis.Match.Slot — matching one element, with its marks.

A `Matcher` is a way to match an element once. It may make decisions of its own
but gives back the stack of decisions as it found it (`stack_attempt`). A `Slot` is
an element of a usage as a sequence sees it: a matcher, its marks, and whether it
is positional. `process` matches it as often as its marks allow. A flag that was
given with a value it cannot have is barred: the slot fails then even if it is
optional.

A repetition takes at least one word each time but the last, so it ends; no count
is greater than the number of words and one (`count_le_of_process`).
-/
import Synopsis.Fault
import Synopsis.Match.Memory
import Synopsis.Node.Basic

namespace Synopsis

namespace Match

/-- How an attempt to match an element once ends. -/
inductive Attempt where
  /-- The element is not there. -/
  | refused
  /-- The element is there, but not as it has to be. -/
  | barred
  /-- The element takes the words before this one. -/
  | upTo (token : Nat)
  | fault (fault : Fault)
deriving DecidableEq

/-- How matching an element with its marks ends. -/
inductive Progress where
  | failed
  /-- The element takes the words before this one, and it occurs so many times. -/
  | reached (token count : Nat)
  | fault (fault : Fault)
deriving DecidableEq

/-- A way to match an element once. An attempt is given the word it begins with, whether it has
to take all words that are left, and what is remembered; it leaves no decision behind. -/
structure Matcher where
  attempt : Nat → Bool → Memory → Attempt × Memory
  stack_attempt (token : Nat) (last : Bool) (memory : Memory) :
    (attempt token last memory).2.stack = memory.stack

namespace Matcher

/-- A matcher that makes no decisions and only goes on with the trail. -/
def ofTrail (attempt : Nat → Trail → Attempt × Trail) : Matcher where
  attempt token _ memory :=
    let (result, trail) := attempt token memory.trail
    (result, memory.withTrail trail)
  stack_attempt _ _ _ := rfl

end Matcher

/-- An element of a usage as a sequence sees it. -/
structure Slot extends Matcher where
  occ : Occurrence
  positional? : Option Bool

namespace Progress

def another : Progress → Progress
  | .reached token count => .reached token (count + 1)
  | progress => progress

end Progress

namespace Slot

def once (slot : Slot) (token : Nat) (last : Bool) (memory : Memory) : Progress × Memory :=
  match slot.attempt token last memory with
  | (.upTo next, memory) => (.reached next 1, memory)
  | (.refused, memory) => (.reached token 0, memory)
  | (.barred, memory) => (.failed, memory)
  | (.fault fault, memory) => (.fault fault, memory)

/-- As many occurrences as there are, up to a number of rounds. An occurrence that takes no word
is the last. -/
def repeated (slot : Slot) (rounds token : Nat) (memory : Memory) : Progress × Memory :=
  match rounds with
  | 0 => (.reached token 0, memory)
  | rounds + 1 =>
    match slot.attempt token false memory with
    | (.upTo next, memory) =>
      if next = token then (.reached token 1, memory)
      else
        let (progress, memory) := slot.repeated rounds next memory
        (progress.another, memory)
    | (.fault fault, memory) => (.fault fault, memory)
    | (_, memory) => (.reached token 0, memory)

/-- The number of rounds that a repetition from the given word on can have. -/
def rounds (total token : Nat) : Option Nat → Nat
  | none => total - token + 1
  | some limit => min limit (total - token + 1)

/-- No occurrence is enough for an optional element only, and the last element has to take all
words. -/
def settle (slot : Slot) (total : Nat) (last : Bool) : Progress → Progress
  | .reached token count =>
    if count = 0 ∧ slot.occ.optional = false then .failed
    else if last ∧ token < total then .failed
    else .reached token count
  | progress => progress

/-- The element from the given word on, with its marks. `total` is the number of words, `last`
says that all of them have to be taken, and `limit` is the greatest number of occurrences of a
repeating element. -/
def process (slot : Slot) (total token : Nat) (last : Bool) (limit : Option Nat)
    (memory : Memory) : Progress × Memory :=
  let (progress, memory) :=
    if slot.occ.repeating then
      match slot.positional? with
      | none => (.fault .undetermined, memory)
      | some true => slot.repeated (rounds total token limit) token memory
      | some false => slot.once token last memory
    else slot.once token last memory
  (slot.settle total last progress, memory)

/-! ## §1 How often an element occurs -/

theorem count_le_of_once {slot : Slot} {token next count : Nat} {last : Bool}
    {memory after : Memory} (h : slot.once token last memory = (.reached next count, after)) :
    count ≤ 1 := by
  unfold once at h
  split at h <;> simp_all
  omega

theorem count_le_of_repeated {slot : Slot} {rounds token next count : Nat} {memory after : Memory}
    (h : slot.repeated rounds token memory = (.reached next count, after)) : count ≤ rounds := by
  induction rounds generalizing token memory next count after with
  | zero => simp_all [repeated]
  | succ rounds ih =>
    unfold repeated at h
    split at h
    · split at h
      · simp_all
      · rename_i middle memory' _ _
        cases hr : slot.repeated rounds middle memory' with
        | mk progress memory'' =>
          rw [hr] at h
          cases progress with
          | reached token' count' =>
            have := ih hr
            simp [Progress.another] at h
            omega
          | failed => simp [Progress.another] at h
          | fault _ => simp [Progress.another] at h
    · simp at h
    · simp_all; omega

theorem settle_eq_reached {slot : Slot} {total token count : Nat} {last : Bool}
    {progress : Progress} (h : slot.settle total last progress = .reached token count) :
    progress = .reached token count := by
  unfold settle at h
  split at h
  · split at h
    · cases h
    · split at h
      · cases h
      · exact h
  · exact h

/-- An element that occurs more than once keeps to its limit and to the number of words. -/
theorem count_le_of_process {slot : Slot} {total token next count : Nat} {last : Bool}
    {limit : Option Nat} {memory after : Memory}
    (h : slot.process total token last limit memory = (.reached next count, after)) :
    count ≤ 1 ∨ (count ≤ total + 1 ∧ ∀ k, limit = some k → count ≤ k) := by
  unfold process at h
  simp only [Prod.mk.injEq] at h
  have hs := settle_eq_reached h.1
  split at hs
  · split at hs
    · cases hs
    · right
      have hle := count_le_of_repeated (Prod.ext_iff.2 ⟨hs, rfl⟩)
      unfold rounds at hle
      split at hle
      · exact ⟨by omega, by simp⟩
      · refine ⟨by omega, fun k hk => ?_⟩
        cases hk
        omega
    · exact .inl (count_le_of_once (Prod.ext_iff.2 ⟨hs, rfl⟩))
  · exact .inl (count_le_of_once (Prod.ext_iff.2 ⟨hs, rfl⟩))

/-! ## §2 What is left of the stack -/

theorem stack_once (slot : Slot) (token : Nat) (last : Bool) (memory : Memory) :
    (slot.once token last memory).2.stack = memory.stack := by
  have h := slot.stack_attempt token last memory
  unfold once
  split <;> simp_all

theorem stack_repeated (slot : Slot) (rounds token : Nat) (memory : Memory) :
    (slot.repeated rounds token memory).2.stack = memory.stack := by
  induction rounds generalizing token memory with
  | zero => rfl
  | succ rounds ih =>
    have h := slot.stack_attempt token false memory
    unfold repeated
    split
    · rename_i next after hattempt
      rw [hattempt] at h
      split
      · exact h
      · exact (ih next after).trans h
    · simp_all
    · simp_all

/-- Matching an element leaves no decision behind. -/
theorem stack_process (slot : Slot) (total token : Nat) (last : Bool) (limit : Option Nat)
    (memory : Memory) : (slot.process total token last limit memory).2.stack = memory.stack := by
  unfold process
  simp only
  split
  · split
    · rfl
    · exact slot.stack_repeated _ _ _
    · exact slot.stack_once _ _ _
  · exact slot.stack_once _ _ _

end Slot

end Match

end Synopsis
