/-
Synopsis.Usage.Token — the tokens of a usage.

A token is a piece of the usage together with its offset. It is a parameter
`<..>`, the repetition marker `...` right after something, one of the characters
`()[]|=`, or a plain word: a run of characters up to a blank, a special character
or a repetition marker, in which a backslash keeps the character after it. The
first character of a plain word is taken as it is.

`takeToken` cuts one token off the front of a text and loses nothing
(`takeToken_append`), so what is left is shorter.
-/
import Synopsis.Text.Escape
import Synopsis.Usage.Alphabet
import Synopsis.Usage.Error

namespace Synopsis

namespace Usage

/-! ## §1 Tokens and what they mean -/

/-- A piece of a usage, as it is written there. -/
structure Token where
  start : Nat
  text : Text
deriving DecidableEq

/-- What a token is. -/
inductive Symbol where
  | opening (bracket : Bracket)
  | closing (bracket : Bracket)
  | bar
  | equals
  | marker
  | flag (key : Text)
  | parameter (name : Text)
  | word (name : Text)
deriving DecidableEq

namespace Token

def stop (token : Token) : Nat := token.start + token.text.length

/-- What the token is, by its text. Two hyphens alone are a word. -/
def symbol (token : Token) : Symbol :=
  match token.text with
  | ['('] => .opening .round
  | ['['] => .opening .square
  | [')'] => .closing .round
  | [']'] => .closing .square
  | ['|'] => .bar
  | ['='] => .equals
  | ['.', '.', '.'] => .marker
  | '<' :: name => .parameter name.dropLast
  | '-' :: '-' :: c :: key => .flag (decode (c :: key))
  | text => .word (decode text)

end Token

/-! ## §2 Cutting tokens -/

def isSingle (c : Char) : Bool := "()[]|=".toList.contains c

/-- A plain word goes on unless the text begins with a blank, a special character or the
repetition marker. -/
def endsPlain : Text → Bool
  | [] => true
  | c :: rest => isSpecial c || isBlank c || startsWithMarker (c :: rest)

def cutAfter (front : Text) (cut : Text × Text) : Text × Text := (front ++ cut.1, cut.2)

/-- The characters that belong to a plain word once it has begun, and those after it. -/
def plainTail : Text → Text × Text
  | [] => ([], [])
  | c :: rest =>
    if c = '\\' then
      match rest with
      | [] => ([c], [])
      | d :: rest => cutAfter [c, d] (plainTail rest)
    else if endsPlain (c :: rest) then ([], c :: rest)
    else cutAfter [c] (plainTail rest)

def takePlain (c : Char) (rest : Text) : Text × Text :=
  if c = '\\' then plainTail (c :: rest)
  else cutAfter [c] (plainTail rest)

/-- The token that begins with `c`, and the characters after it. `previous` is the character
before `c` in the usage; a repetition marker needs one that is not blank. -/
def takeToken (position : Nat) (previous : Option Char) (c : Char) (rest : Text) :
    Except UsageError (Text × Text) :=
  if c = '<' then
    match rest.dropWhile (· ≠ '>') with
    | [] => .error (.unclosedParameter position)
    | close :: after => .ok (c :: rest.takeWhile (· ≠ '>') ++ [close], after)
  else if startsWithMarker (c :: rest) then
    if previous.all isBlank then .error (.detachedMarker position)
    else .ok (repeatMarker, rest.drop 2)
  else if isSingle c then .ok ([c], rest)
  else .ok (takePlain c rest)

/-! ## §3 Nothing is lost -/

theorem plainTail_append (text : Text) : (plainTail text).1 ++ (plainTail text).2 = text := by
  fun_induction plainTail text with
  | case1 => rfl
  | case2 => rfl
  | case3 _ _ ih => simp [cutAfter, ih]
  | case4 => rfl
  | case5 _ _ _ _ ih => simp [cutAfter, ih]

theorem takePlain_append (c : Char) (rest : Text) :
    (takePlain c rest).1 ++ (takePlain c rest).2 = c :: rest := by
  unfold takePlain
  split
  · exact plainTail_append _
  · simp [cutAfter, plainTail_append]

theorem takePlain_ne_nil (c : Char) (rest : Text) : (takePlain c rest).1 ≠ [] := by
  unfold takePlain
  split
  · cases rest <;> simp_all [plainTail, cutAfter]
  · simp [cutAfter]

/-- A token and the characters after it are the text it was cut from. -/
theorem takeToken_append {position : Nat} {previous : Option Char} {c : Char}
    {rest text after : Text} (h : takeToken position previous c rest = .ok (text, after)) :
    text ≠ [] ∧ text ++ after = c :: rest := by
  unfold takeToken at h
  split at h
  · split at h
    · cases h
    · rename_i close more hdrop
      cases h
      have := List.takeWhile_append_dropWhile (p := (· ≠ '>')) (l := rest)
      rw [hdrop] at this
      exact ⟨by simp, by simpa using this⟩
  · split at h
    · split at h
      · cases h
      · cases h
        rename_i hmarker _
        refine ⟨by simp [repeatMarker], ?_⟩
        unfold startsWithMarker at hmarker
        split at hmarker
        · simp_all [repeatMarker]
        · cases hmarker
    · split at h
      · cases h; exact ⟨by simp, rfl⟩
      · simp only [Except.ok.injEq] at h
        have happend := takePlain_append c rest
        have hne := takePlain_ne_nil c rest
        rw [h] at happend hne
        exact ⟨hne, happend⟩

theorem length_lt_of_takeToken {position : Nat} {previous : Option Char} {c : Char}
    {rest text after : Text} (h : takeToken position previous c rest = .ok (text, after)) :
    after.length < (c :: rest).length := by
  obtain ⟨hne, happend⟩ := takeToken_append h
  rw [← happend, List.length_append]
  have := List.length_pos_iff.2 hne
  omega

/-! ## §4 The tokens of a usage -/

/-- The tokens of the part of a usage that begins at the given offset, after the character
`previous`. -/
def tokensFrom (position : Nat) (previous : Option Char) (text : Text) :
    Except UsageError (List Token) :=
  match text with
  | [] => .ok []
  | c :: rest =>
    if isBlank c then tokensFrom (position + 1) (some c) rest
    else
      match _h : takeToken position previous c rest with
      | .error error => .error error
      | .ok (text, after) =>
        (tokensFrom (position + text.length) text.getLast? after).map (⟨position, text⟩ :: ·)
termination_by text.length
decreasing_by
  · simp
  · exact length_lt_of_takeToken _h

def tokens (usage : Text) : Except UsageError (List Token) := tokensFrom 0 none usage

end Usage

end Synopsis
