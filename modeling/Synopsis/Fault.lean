/-
Synopsis.Fault — questions that have no answer.

A fault is no verdict on a usage or a line: it says that a question was put
which cannot be answered, such as what stands at an offset outside the text.
Compiled usages and whole lines never lead to one.
-/
import Synopsis.Text.Basic
import Synopsis.Word64

namespace Synopsis

/-- Why a question has no answer. -/
inductive Fault where
  /-- An offset that names no character was read. -/
  | outOfRange
  /-- An offset was read that does not even fit in a signed word of 64 bits. -/
  | notIndex
  /-- A hole was matched against a word. -/
  | unsupported
  /-- It was asked how a hole is written or whether it is positional. -/
  | undetermined
deriving DecidableEq

namespace Fault

/-- The fault in words; a hole says nothing about itself. -/
def message : Fault → Text
  | .outOfRange => "string index out of range".toList
  | .notIndex => "cannot fit 'int' into an index-sized integer".toList
  | .unsupported => "Unsupported grammar node: Node".toList
  | .undetermined => []

/-- What is wrong with reading the offset of no character. -/
def reading (offset : Int) : Fault := if fitsWord64 offset then .outOfRange else .notIndex

end Fault

end Synopsis
