/-
Synopsis.Text.Window — spans of a text given by two offsets.

An offset is an integer. As the end of a span, a negative offset counts from
the end of the text and an offset outside the text stands for the nearest end
(`slice`). As a place to read, an offset from `-n` to `n - 1` names a character
of a text of `n` characters and any other offset names none.

A `Window` is the range of offsets that a reader goes through one by one. Its
`chars` are the characters it can read before the first offset that names none,
and `excess` is the number of offsets from there to its end. A window inside its
text has no excess, and its characters are the span itself (`chars_inside`,
`excess_inside`).
-/
import Synopsis.Text.Escape

namespace Synopsis

/-! ## §1 Spans -/

/-- The end that an offset stands for in a text of the given size. -/
def clampOffset (size : Nat) (offset : Int) : Nat :=
  if offset < 0 then (offset + size).toNat else min offset.toNat size

def slice (source : Text) (start stop : Int) : Text :=
  (source.take (clampOffset source.length stop)).drop (clampOffset source.length start)

/-- The text that a span means, `none` if reading it leaves the text.

A span without a backslash is taken as `slice` gives it. From the first backslash on
the characters are read one by one up to the raw end offset: one below zero ends the
reading at once, and one past the text is never reached. -/
def decodeSpan? (source : Text) (start stop : Int) : Option Text :=
  let span := slice source start stop
  if '\\' ∉ span then some span
  else if stop < 0 then some (span.takeWhile (· ≠ '\\'))
  else if source.length < stop then none
  else some (decode span)

/-! ## §2 Windows -/

/-- The offsets of `source` from `start` up to but without `stop`. -/
structure Window where
  source : Text
  start : Int
  stop : Int

namespace Window

def whole (source : Text) : Window := ⟨source, 0, source.length⟩

/-- The characters read from `start` on, until `stop` or the first offset without one. -/
def chars (w : Window) : Text :=
  let size : Int := w.source.length
  if w.start < -size then []
  else
    let wrapped := if w.start < 0 then w.source.drop (size + w.start).toNat else []
    (wrapped ++ w.source.drop w.start.toNat).take (min w.stop size - w.start).toNat

def excess (w : Window) : Nat :=
  let size : Int := w.source.length
  if w.start < -size then (w.stop - w.start).toNat else (w.stop - max w.start size).toNat

/-- The offset after `chars`. Unless the window ends there, it names no character. -/
def limit (w : Window) : Int := w.start + w.chars.length

/-- The text meant by the stretch `raw` that was read from `start` to `stop`. A stretch that
lies inside the text is its own span. -/
def meaning? (w : Window) (start stop : Int) (raw : Text) : Option Text :=
  if 0 ≤ start ∧ stop ≤ w.source.length then some (decode raw)
  else decodeSpan? w.source start stop

/-- The span of the stretch `raw` that was read from `start` to `stop`. A stretch that runs
from before offset zero into the text is no span. -/
def cut (w : Window) (start stop : Int) (raw : Text) : Text :=
  if start < 0 ∧ 0 ≤ stop then slice w.source start stop else raw

/-! ## §3 Windows inside the text -/

theorem chars_inside {source : Text} {start stop : Nat} (h : stop ≤ source.length) :
    chars ⟨source, start, stop⟩ = (source.drop start).take (stop - start) := by
  have h1 : ¬ ((start : Int) < -(source.length : Int)) := by omega
  have h2 : ¬ ((start : Int) < 0) := by omega
  have h3 : (min (stop : Int) source.length - start).toNat = stop - start := by omega
  simp [chars, h1, h2, h3]

theorem excess_inside {source : Text} {start stop : Nat} (h : stop ≤ source.length) :
    excess ⟨source, start, stop⟩ = 0 := by
  have h1 : ¬ ((start : Int) < -(source.length : Int)) := by omega
  simp only [excess, h1, if_false]
  omega

@[simp] theorem chars_whole (source : Text) : (whole source).chars = source := by
  simpa [whole] using @chars_inside source 0 source.length (Nat.le_refl _)

@[simp] theorem excess_whole (source : Text) : (whole source).excess = 0 := by
  simpa [whole] using @excess_inside source 0 source.length (Nat.le_refl _)

end Window

end Synopsis
