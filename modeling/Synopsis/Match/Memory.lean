/-
Synopsis.Match.Memory — what a match remembers.

A match remembers the trail of what it has recorded, and the decisions that it
can still take differently. These form a stack with the latest decision on top,
and all sequences that are being matched share it: a sequence takes back only the
decisions it has made itself, and leaves the stack as high as it found it.
-/
import Synopsis.Match.Trail

namespace Synopsis

namespace Match

/-- A decision that can still be taken: to match the slot again from the given word on, and to
leave it out or to repeat it no more often than `cap`. -/
structure Retry where
  slot : Nat
  token : Nat
  mark : Mark
  leftOut : List Nat
  cap : Option Nat
deriving DecidableEq

/-- What is remembered. The first decision of the stack is the latest one. -/
structure Memory where
  trail : Trail := {}
  stack : List Retry := []
deriving DecidableEq

namespace Memory

def withTrail (memory : Memory) (trail : Trail) : Memory := { memory with trail := trail }

/-- Forgetting what was recorded since the mark. -/
def cutTo (memory : Memory) (mark : Mark) : Memory := memory.withTrail (memory.trail.cutTo mark)

/-- Dropping the decisions that were made since the stack had the given height. -/
def dropTo (memory : Memory) (height : Nat) : Memory :=
  { memory with stack := memory.stack.drop (memory.stack.length - height) }

@[simp] theorem trail_withTrail (memory : Memory) (trail : Trail) :
    (memory.withTrail trail).trail = trail := rfl

@[simp] theorem stack_withTrail (memory : Memory) (trail : Trail) :
    (memory.withTrail trail).stack = memory.stack := rfl

@[simp] theorem trail_cutTo (memory : Memory) (mark : Mark) :
    (memory.cutTo mark).trail = memory.trail.cutTo mark := rfl

@[simp] theorem stack_cutTo (memory : Memory) (mark : Mark) :
    (memory.cutTo mark).stack = memory.stack := rfl

@[simp] theorem trail_dropTo (memory : Memory) (height : Nat) :
    (memory.dropTo height).trail = memory.trail := rfl

/-- Dropping brings back an earlier stack that the present one stands on. -/
theorem stack_dropTo {memory : Memory} {stack : List Retry} (h : stack <:+ memory.stack) :
    (memory.dropTo stack.length).stack = stack := by
  exact (List.suffix_iff_eq_drop.mp h).symm

end Memory

end Match

end Synopsis
