/-
Synopsis.Word64 — the integers that fit in a signed 64-bit word.

Integers are unbounded throughout the library. Two questions are asked only of
those that fit in a word: what stands at an offset, and whether a number is a
truth value.
-/
namespace Synopsis

def fitsWord64 (n : Int) : Bool := -0x8000000000000000 ≤ n && n < 0x8000000000000000

end Synopsis
