/-
Synopsis.Proofs.Match.Rollback — an attempt that fails leaves nothing behind.

Before it fails an attempt may have recorded captures, admitted flags and made decisions.
All of this is taken back, and an attempt that succeeds leaves no decision and has recorded
one capture for each word it took (`attempt_restores`). This holds for leaves and groups at
any depth, whatever was remembered before, for groups at all depths share one stack.

Matching a node with its marks restores less. It can fail after its attempts have succeeded,
when they leave over words that they had to take, and what they have recorded stays then.
The stack is as it was even so, and all that was added to the trail is at its end, so that
cutting the trail back is enough to repair it (`cutTo_of_process_failed`). Choices and
sequences do just that whenever a member fails.
-/
import Synopsis.Proofs.Match.Soundness

namespace Synopsis

namespace Match

open Line (Parsed)

/-! ## §1 Going on -/

/-- What is remembered after the words between the two given ones were taken: the decisions that
were there before, and a trail that goes on from the one before with a capture for each word. -/
structure GoesOn (token next : Nat) (memory after : Memory) : Prop where
  token_le : token ≤ next
  stack_eq : after.stack = memory.stack
  trail_extends : after.trail.Extends memory.trail
  captures_length :
    after.trail.captures.length = memory.trail.captures.length + (next - token)

theorem Reading.length_captures (token : Nat) (readings : List Reading) :
    (Reading.captures token readings).length = readings.length := by
  induction readings generalizing token with
  | nil => rfl
  | cons reading readings ih => rw [Reading.captures, List.length_cons, ih, List.length_cons]

theorem Trail.extends_note (trail : Trail) (token : Nat) (readings : List Reading)
    (keys : List Text) : (trail.note token readings keys).Extends trail :=
  ⟨List.prefix_append _ _, List.prefix_append _ _⟩

/-- Walking along the words of a line records each of them. -/
theorem Walks.goesOn {line : Parsed} {token next : Nat} {memory after : Memory}
    {readings : List Reading} {keys : List Text}
    (h : Walks line token next memory.trail after.trail readings keys)
    (hstack : after.stack = memory.stack) : GoesOn token next memory after := by
  obtain ⟨rfl, -, htrail⟩ := h
  refine ⟨Nat.le_add_right _ _, hstack, ?_, ?_⟩
  · rw [htrail]
    exact memory.trail.extends_note token readings keys
  · rw [htrail, Trail.note, List.length_append, Reading.length_captures, Nat.add_sub_cancel_left]

/-! ## §2 Restoring -/

/-- The same trail above the same stack is the same memory. -/
theorem Memory.eq_of_parts {memory after : Memory} (htrail : after.trail = memory.trail)
    (hstack : after.stack = memory.stack) : after = memory :=
  congr (congrArg Memory.mk htrail) hstack

section Nodes

variable {line : Parsed} {node : Node} {token next count : Nat} {last : Bool} {limit : Option Nat}
  {memory after : Memory}

theorem stack_of_attempt {result : Attempt}
    (h : attempt line node token last memory = (result, after)) : after.stack = memory.stack :=
  (congrArg (fun found => found.2.stack) h).symm.trans
    ((matcher line node).stack_attempt token last memory)

theorem stack_of_process {progress : Progress}
    (h : process line node token last limit memory = (progress, after)) :
    after.stack = memory.stack :=
  (congrArg (fun found => found.2.stack) h).symm.trans
    ((slotOf line node).stack_process line.words.length token last limit memory)

/-- Matching a node with its marks only adds to the trail, also when it fails. -/
theorem trail_extends_of_process {progress : Progress}
    (h : process line node token last limit memory = (progress, after)) :
    after.trail.Extends memory.trail := by
  have hextends := (slotOf line node).trail_extends_process (lawful_matcher line node)
    line.words.length token last limit memory
  exact congrArg (fun found => found.2.trail) h ▸ hextends

/-- An attempt that does not match has changed nothing. -/
theorem eq_of_attempt_failed {result : Attempt}
    (h : attempt line node token last memory = (result, after))
    (hresult : result = .refused ∨ result = .barred) : after = memory :=
  Memory.eq_of_parts ((lawful_matcher line node).trail_eq h hresult) (stack_of_attempt h)

/-- An attempt that matches goes on by the words it takes. -/
theorem goesOn_of_attempt (h : attempt line node token last memory = (.upTo next, after)) :
    GoesOn token next memory after := by
  obtain ⟨readings, keys, -, hwalks⟩ := occurs_of_attempt line node h
  exact hwalks.goesOn (stack_of_attempt h)

/-- A node with its marks that matches goes on by the words that all its occurrences take. -/
theorem goesOn_of_process
    (h : process line node token last limit memory = (.reached next count, after)) :
    GoesOn token next memory after := by
  obtain ⟨readings, keys, -, hwalks⟩ :=
    derives_of_process (fun h => occurs_of_attempt line node h) h
  exact hwalks.goesOn (stack_of_process h)

/-- A node with its marks that fails is undone by cutting the trail back. -/
theorem cutTo_of_process_failed
    (h : process line node token last limit memory = (.failed, after)) :
    after.cutTo memory.trail.mark = memory := by
  have htrail : (after.cutTo memory.trail.mark).trail = memory.trail :=
    (trail_extends_of_process h).cutTo_mark
  have hstack := stack_of_process h
  exact Memory.eq_of_parts htrail hstack

end Nodes

/-- **Rolling back.** Whatever the line, the node, the word it begins with and what is remembered: an
attempt that does not match, whether the node is missing or barred, leaves the captures, the admitted
flags and the stack of decisions as they were. One that matches leaves the stack as it was and only
adds to the captures and the flags, one capture for each word it takes.

A node with its marks goes on in the same way if it matches. If it fails it may have added to the
captures and the flags, and cutting them back to their lengths before leaves all as it was. -/
theorem attempt_restores (line : Parsed) (node : Node) (token : Nat) (last : Bool)
    (memory : Memory) :
    (∀ result after, attempt line node token last memory = (result, after) →
      (result = .refused ∨ result = .barred) → after = memory) ∧
    (∀ next after, attempt line node token last memory = (.upTo next, after) →
      GoesOn token next memory after) ∧
    (∀ limit next count after,
      process line node token last limit memory = (.reached next count, after) →
        GoesOn token next memory after) ∧
    ∀ limit after, process line node token last limit memory = (.failed, after) →
      after.cutTo memory.trail.mark = memory := by
  refine ⟨fun result after => eq_of_attempt_failed, fun next after => goesOn_of_attempt,
    fun limit next count after => goesOn_of_process, fun limit after => cutTo_of_process_failed⟩

/-- A sequence that gives up after five ways to divide the words, a flag with a value it cannot have, a
sequence that goes back once, a parameter that takes two words, and a literal that fails after it has
recorded its word. -/
theorem attempt_restores_three_words :
    let line : Parsed := ⟨[⟨0, 1, some "a".toList⟩, ⟨2, 3, some "b".toList⟩, ⟨4, 5, some "c".toList⟩],
      [("dry".toList, some "x".toList)]⟩
    let memory : Memory :=
      ⟨⟨[("name".toList, some "z".toList)], ["v".toList]⟩, [⟨2, 0, ⟨1, 0⟩, [1], some 1⟩]⟩
    let files (word : Text) : Node := .sequence {} [.literal ⟨true, false⟩ "a".toList,
      .parameter ⟨false, true⟩ "file".toList, .literal {} word]
    (∃ after, attempt line (files "d".toList) 0 false memory = (.refused, after) ∧ after = memory) ∧
    (∃ after, attempt line (.flag {} "dry".toList) 1 false memory = (.barred, after) ∧
      after = memory) ∧
    (∃ after, attempt line (files "c".toList) 0 true memory = (.upTo 3, after) ∧
      GoesOn 0 3 memory after) ∧
    (∃ after, process line (.parameter ⟨false, true⟩ "file".toList) 1 true none memory =
      (.reached 3 2, after) ∧ GoesOn 1 3 memory after) ∧
    ∃ after, process line (.literal ⟨true, false⟩ "a".toList) 0 true none memory = (.failed, after) ∧
      after ≠ memory ∧ after.cutTo memory.trail.mark = memory := by
  intro line memory files
  obtain ⟨hrefused, -⟩ := attempt_restores line (files "d".toList) 0 false memory
  obtain ⟨hbarred, -⟩ := attempt_restores line (.flag {} "dry".toList) 1 false memory
  obtain ⟨-, hmatches, -⟩ := attempt_restores line (files "c".toList) 0 true memory
  obtain ⟨-, -, hreached, -⟩ :=
    attempt_restores line (.parameter ⟨false, true⟩ "file".toList) 1 true memory
  obtain ⟨-, -, -, hfailed⟩ :=
    attempt_restores line (.literal ⟨true, false⟩ "a".toList) 0 true memory
  have refused : attempt line (files "d".toList) 0 false memory = (.refused, memory) := by
    decide +kernel
  have barred : attempt line (.flag {} "dry".toList) 1 false memory = (.barred, memory) := by
    decide +kernel
  have matched : attempt line (files "c".toList) 0 true memory =
      (.upTo 3, memory.withTrail (memory.trail.note 0
        [.keyword "a".toList, .value "file".toList "b".toList, .keyword "c".toList] [])) := by
    decide +kernel
  have reached : process line (.parameter ⟨false, true⟩ "file".toList) 1 true none memory =
      (.reached 3 2, memory.withTrail (memory.trail.note 1
        [.value "file".toList "b".toList, .value "file".toList "c".toList] [])) := by
    decide +kernel
  have failed : process line (.literal ⟨true, false⟩ "a".toList) 0 true none memory =
      (.failed, memory.withTrail (memory.trail.note 0 [.keyword "a".toList] [])) := by
    decide +kernel
  exact ⟨⟨_, refused, hrefused _ _ refused (.inl rfl)⟩, ⟨_, barred, hbarred _ _ barred (.inr rfl)⟩,
    ⟨_, matched, hmatches _ _ matched⟩, ⟨_, reached, hreached _ _ _ _ reached⟩,
    ⟨_, failed, by decide +kernel, hfailed _ _ failed⟩⟩

end Match

end Synopsis
