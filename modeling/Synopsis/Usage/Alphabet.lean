/-
Synopsis.Usage.Alphabet — the characters with a meaning of their own in a usage.

Eight characters and the blanks end a plain word of a usage, and so does the
repetition marker `...`. `escapeLiteral` is the spelling of a literal's text
that is read back as one plain word with that text.
-/
import Synopsis.Text.Blank

namespace Synopsis

def specialChars : Text := "()[]|=<>".toList

/-- A special character ends a plain word of a usage unless it is escaped. -/
def isSpecial (c : Char) : Bool := specialChars.contains c

def repeatMarker : Text := ['.', '.', '.']

def startsWithMarker : Text → Bool
  | '.' :: '.' :: '.' :: _ => true
  | _ => false

def hasMarker : Text → Bool
  | [] => false
  | c :: rest => startsWithMarker (c :: rest) || hasMarker rest

def startsWithHyphens : Text → Bool
  | '-' :: '-' :: _ => true
  | _ => false

theorem startsWithHyphens_cons (c d : Char) (rest : Text) :
    startsWithHyphens (c :: d :: rest) = (c == '-' && d == '-') := by
  unfold startsWithHyphens
  split
  · rename_i heq
    cases heq
    rfl
  · rename_i hne
    by_cases hc : c = '-'
    · have hd : d ≠ '-' := fun hd => hne rest (by rw [hc, hd])
      simp [hc, hd]
    · simp [hc]

/-- A literal's text has to have its dots escaped if they could be taken for a mark of
repetition: three in a row, or one at the end, where a mark may follow. -/
def dotsAreAmbiguous (name : Text) : Bool := hasMarker name || name.getLast? == some '.'

def escapeLiteral (name : Text) : Text :=
  let escaped := name.flatMap fun c =>
    if isSpecial c || c == '\\' || isBlank c || (c == '.' && dotsAreAmbiguous name) then ['\\', c]
    else [c]
  if startsWithHyphens escaped then '\\' :: escaped else escaped

end Synopsis
