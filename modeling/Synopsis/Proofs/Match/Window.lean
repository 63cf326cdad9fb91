/-
Synopsis.Proofs.Match.Window — matching a part of a line.

A part of a line can be matched where it stands, through a window, or cut out and matched as
a line of its own. Both come to the same (`parseWindow_eq_parse_slice`). The readings differ
in their offsets only, and a tree sees texts and flags but no offsets.
-/
import Synopsis.Proofs.Line.Window
import Synopsis.Proofs.Match.Agreement

namespace Synopsis

open Line (Parsed)

namespace Match

/-- A tree does not see where on a line its words stand. -/
theorem agrees_shift (n : Nat) (line : Parsed) : Agrees (line.shift n) line where
  texts_eq := by simp [Parsed.shift, Line.Word.shift, Function.comp_def]
  get?_eq _ := rfl

theorem judge_shift (n : Nat) (line : Parsed) (tree : Node) :
    judge tree (line.shift n) = judge tree line :=
  judge_eq_of_agrees (agrees_shift n line) rfl tree

/-- **Windows.** A window inside a line is matched like the part that it shows, cut out of the
line: if there are bindings they are the same ones, and if there are none, there are none. If the
part is malformed, so is what the window shows, for the same reason and in the same way, and the
place is the same counted from where the window starts.

What is read through the window has the same texts and the same table of flags; only the offsets of
the words are greater, all by the one at which the window starts. -/
theorem parseWindow_eq_parse_slice {line : Text} {start stop : Nat} (horder : start ≤ stop)
    (hstop : stop ≤ line.length) (tree : Node) :
    parseWindow tree ⟨line, start, stop⟩ =
      (parse tree (slice line start stop)).mapError (LineFailure.shift start) ∧
    Line.read ⟨line, start, stop⟩ =
      ((Line.read (.whole (slice line start stop))).map (Parsed.shift start)).mapError
        (LineFailure.shift start) ∧
    ∀ error : LineError, (error.shift start).position = error.position + start ∧
      (error.shift start).reason = error.reason := by
  have hread := Line.read_shift (Line.shows_slice horder hstop)
  refine ⟨?_, hread, fun error => ⟨error.position_shift start, error.reason_shift start⟩⟩
  unfold parse parseWindow
  rw [hread]
  cases Line.read (.whole (slice line start stop)) with
  | error failure => rfl
  | ok parsed =>
    simp only [Except.map, Except.mapError, judge_shift]
    cases judge tree parsed <;> rfl

/-- A window that ends between a backslash and the blank it escapes, and one that ends before the
quote that would close a word. -/
theorem parseWindow_eq_parse_slice_cut :
    (2 ≤ 6 ∧ 6 ≤ "a b c\\ d".toList.length ∧ 6 ≤ "a \"b\\\" c\"".toList.length) ∧
    parseWindow (.parameter ⟨false, true⟩ "x".toList) ⟨"a b c\\ d".toList, 2, 6⟩ =
      .ok (some ⟨[("x".toList, some "b".toList), ("x".toList, some "c\\".toList)]⟩) ∧
    parseWindow (.parameter {} "x".toList) ⟨"a \"b\\\" c\"".toList, 2, 6⟩ =
      .error (.malformed (.unclosedQuote 2 '"')) := by
  have hword : parse (.parameter ⟨false, true⟩ "x".toList) (slice "a b c\\ d".toList 2 6) =
      .ok (some ⟨[("x".toList, some "b".toList), ("x".toList, some "c\\".toList)]⟩) := by
    decide +kernel
  have hquote : parse (.parameter {} "x".toList) (slice "a \"b\\\" c\"".toList 2 6) =
      .error (.malformed (.unclosedQuote 0 '"')) := by
    decide +kernel
  have hbounds : 2 ≤ 6 ∧ 6 ≤ "a b c\\ d".toList.length ∧
      6 ≤ "a \"b\\\" c\"".toList.length := by
    decide
  refine ⟨hbounds, ?_, ?_⟩
  · exact (parseWindow_eq_parse_slice hbounds.1 hbounds.2.1 _).1.trans
      (congrArg (Except.mapError (LineFailure.shift 2)) hword)
  · exact (parseWindow_eq_parse_slice hbounds.1 hbounds.2.2 _).1.trans
      (congrArg (Except.mapError (LineFailure.shift 2)) hquote)

end Match

end Synopsis
