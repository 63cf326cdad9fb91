/-
Synopsis.Proofs.Usage.Spelling — reading the tokens of a text that was written piece by piece.

A usage is written as a list of pieces, each a token or a blank. Its tokens are read
back just as they were written (`tokens_of_pieces`) if the pieces are spellable and
neighbours stay apart: a plain word does not stand next to another one, and a
repetition marker stands next to something it can follow (`Piece.Adjoins`).

There are four ways in which a token is cut off (`CutsOff`). Each piece is cut off
whatever comes after it (`takeToken_spelling`). The spelling of a literal hides every
character that would end a plain word, and dots are only left as they are where they
make no marker with those behind them.
-/
import Synopsis.Proofs.Usage.Shape
import Mathlib.Data.List.Chain

namespace Synopsis

/-! ## §1 Escapes -/

/-- A character of a literal as it is spelled; `dots` says whether a dot is escaped. -/
def escapeChar (dots : Bool) (c : Char) : Text :=
  if isSpecial c || c == '\\' || isBlank c || (c == '.' && dots) then ['\\', c] else [c]

/-- What is escaped is no letter that names a control character. -/
theorem escapedChar_of_escaped {dots : Bool} {c : Char}
    (h : (isSpecial c || c == '\\' || isBlank c || (c == '.' && dots)) = true) :
    escapedChar c = c := by
  unfold escapedChar
  split
  all_goals first | rfl | (exfalso; revert h; cases dots <;> decide)

theorem decode_escapeChar (dots : Bool) (c : Char) (rest : Text) :
    decode (escapeChar dots c ++ rest) = c :: decode rest := by
  unfold escapeChar
  split
  · rename_i hescaped
    show decode ('\\' :: c :: rest) = _
    rw [decode_pair, escapedChar_of_escaped hescaped]
  · rename_i hplain
    have hc : c ≠ '\\' := by
      rintro rfl
      simp at hplain
    exact decode_cons hc rest

theorem decode_flatMap_escapeChar (dots : Bool) (name : Text) :
    decode (name.flatMap (escapeChar dots)) = name := by
  induction name with
  | nil => rfl
  | cons c name ih => rw [List.flatMap_cons, decode_escapeChar, ih]

theorem escapeLiteral_eq (name : Text) :
    escapeLiteral name =
      let escaped := name.flatMap (escapeChar (dotsAreAmbiguous name))
      if startsWithHyphens escaped then '\\' :: escaped else escaped := rfl

/-- Two hyphens at the beginning of a spelling are those of the name. -/
theorem eq_of_startsWithHyphens_escaped {dots : Bool} {name : Text}
    (h : startsWithHyphens (name.flatMap (escapeChar dots)) = true) :
    ∃ rest, name = '-' :: rest ∧ rest ≠ [] := by
  match name with
  | [] => cases h
  | c :: rest =>
    have hc : c = '-' := by
      rw [List.flatMap_cons] at h
      unfold escapeChar at h
      split at h
      · cases h
      · unfold startsWithHyphens at h
        split at h
        · rename_i heq
          exact (List.cons.inj heq).1
        · cases h
    refine ⟨rest, by rw [hc], ?_⟩
    rintro rfl
    subst hc
    cases dots <;> cases h

/-- The spelling of a literal means its name. -/
theorem decode_escapeLiteral (name : Text) : decode (escapeLiteral name) = name := by
  rw [escapeLiteral_eq]
  simp only
  split
  · rename_i hhyphens
    obtain ⟨rest, hname, -⟩ := eq_of_startsWithHyphens_escaped hhyphens
    have hdecode := decode_flatMap_escapeChar (dotsAreAmbiguous name) name
    rw [hname] at hdecode ⊢
    exact hdecode
  · exact decode_flatMap_escapeChar _ _

namespace Usage

/-! ## §2 Plain words -/

/-- What ends a plain word ends it at once. -/
theorem plainTail_of_endsPlain {text : Text} (h : endsPlain text = true) :
    plainTail text = ([], text) := by
  match text with
  | [] => simp [plainTail]
  | c :: rest =>
    have hc : c ≠ '\\' := by
      rintro rfl
      cases h
    simp [plainTail.eq_def, hc, h]

theorem plainTail_pair (c : Char) (rest : Text) :
    plainTail ('\\' :: c :: rest) = cutAfter ['\\', c] (plainTail rest) := by
  simp [plainTail]

/-- A character that a plain word goes on with belongs to it. -/
theorem plainTail_cons {c : Char} {rest : Text} (hc : c ≠ '\\')
    (h : endsPlain (c :: rest) = false) :
    plainTail (c :: rest) = cutAfter [c] (plainTail rest) := by
  simp [plainTail.eq_def (c :: rest), hc, h]

/-- A plain word is begun as it is gone on with. -/
theorem takePlain_eq {c : Char} {rest : Text} (h : endsPlain (c :: rest) = false) :
    takePlain c rest = plainTail (c :: rest) := by
  unfold takePlain
  split
  · rfl
  · rename_i hc
    exact (plainTail_cons hc h).symm

theorem endsPlain_cons (c : Char) (rest : Text) :
    endsPlain (c :: rest) = (isSpecial c || isBlank c || startsWithMarker (c :: rest)) := rfl

theorem isSpecial_of_isSingle {c : Char} (h : isSingle c = true) : isSpecial c = true := by
  unfold isSingle at h
  unfold isSpecial specialChars
  rw [show "()[]|=<>".toList = "()[]|=".toList ++ ['<', '>'] by decide, List.contains_append, h]
  rfl

/-- What does not end a plain word begins one. -/
theorem takeToken_of_plain (position : Nat) (previous : Option Char) {c : Char} {rest : Text}
    (h : endsPlain (c :: rest) = false) :
    takeToken position previous c rest = .ok (plainTail (c :: rest)) := by
  have hparts := h
  rw [endsPlain_cons, Bool.or_eq_false_iff, Bool.or_eq_false_iff] at hparts
  obtain ⟨⟨hspecial, -⟩, hmarker⟩ := hparts
  have hopen : c ≠ '<' := by
    rintro rfl
    cases hspecial
  have hsingle : ¬ isSingle c = true := by
    intro hsingle
    rw [isSpecial_of_isSingle hsingle] at hspecial
    cases hspecial
  unfold takeToken
  rw [if_neg hopen, if_neg (by simp [hmarker]), if_neg hsingle, takePlain_eq h]

theorem startsWithMarker_iff {text : Text} :
    startsWithMarker text = true ↔ ∃ rest, text = '.' :: '.' :: '.' :: rest := by
  unfold startsWithMarker
  constructor
  · intro h
    split at h
    · exact ⟨_, rfl⟩
    · cases h
  · rintro ⟨rest, rfl⟩
    rfl

/-! ## §3 Spelling plain words -/

section Escaped

variable {dots : Bool}

/-- A spelling that begins with a dot is that of a name that does, and dots are not escaped. -/
theorem eq_of_escaped_cons_eq_dot {c : Char} {name rest tail : Text}
    (h : (c :: name).flatMap (escapeChar dots) ++ rest = '.' :: tail) :
    c = '.' ∧ dots = false ∧ name.flatMap (escapeChar dots) ++ rest = tail := by
  rw [List.flatMap_cons, List.append_assoc] at h
  unfold escapeChar at h
  split at h
  · cases h
  · rename_i hplain
    obtain ⟨rfl, htail⟩ := List.cons.inj h
    refine ⟨rfl, ?_, htail⟩
    cases dots with
    | false => rfl
    | true => simp at hplain

/-- No marker begins in a spelling, or at its end with the dots of the text after it. -/
theorem startsWithMarker_escaped {c : Char} {name rest : Text}
    (hmarker : dots = false → startsWithMarker (c :: name) = false)
    (hdot : dots = false → rest.head? = some '.' → (c :: name).getLast? ≠ some '.') :
    startsWithMarker ((c :: name).flatMap (escapeChar dots) ++ rest) = false := by
  rw [Bool.eq_false_iff]
  intro h
  obtain ⟨tail, htail⟩ := startsWithMarker_iff.mp h
  obtain ⟨rfl, hdots, hname⟩ := eq_of_escaped_cons_eq_dot htail
  have hdot := hdot hdots
  match name with
  | [] =>
    exact hdot (by simpa using congrArg List.head? hname) rfl
  | d :: name =>
    obtain ⟨rfl, -, hname⟩ := eq_of_escaped_cons_eq_dot hname
    match name with
    | [] => exact hdot (by simpa using congrArg List.head? hname) rfl
    | e :: name =>
      obtain ⟨rfl, -, -⟩ := eq_of_escaped_cons_eq_dot hname
      exact absurd (hmarker hdots) (by simp [startsWithMarker])

/-- A spelling is cut off as it was written, if what comes after it ends a plain word and makes no
marker with a dot at its end. -/
theorem plainTail_escaped (dots : Bool) (name : Text) {rest : Text} (hrest : endsPlain rest = true)
    (hmarker : dots = false → hasMarker name = false)
    (hdot : dots = false → rest.head? = some '.' → name.getLast? ≠ some '.') :
    plainTail (name.flatMap (escapeChar dots) ++ rest) = (name.flatMap (escapeChar dots), rest) := by
  induction name with
  | nil => exact plainTail_of_endsPlain hrest
  | cons c name ih =>
    have hparts (hdots : dots = false) :
        startsWithMarker (c :: name) = false ∧ hasMarker name = false := by
      simpa [hasMarker] using hmarker hdots
    have ih := ih (fun hdots => (hparts hdots).2) (fun hdots hhead hlast => hdot hdots hhead (by
      rw [List.getLast?_cons, hlast]
      rfl))
    have hnone := startsWithMarker_escaped (fun hdots => (hparts hdots).1) hdot
    rw [List.flatMap_cons, List.append_assoc] at hnone ⊢
    by_cases hescaped : (isSpecial c || c == '\\' || isBlank c || (c == '.' && dots)) = true
    · rw [escapeChar, if_pos hescaped, List.cons_append, List.cons_append, List.nil_append,
        plainTail_pair, ih]
      rfl
    · rw [escapeChar, if_neg hescaped] at hnone ⊢
      have hc : c ≠ '\\' := by
        rintro rfl
        simp at hescaped
      have hends : endsPlain (c :: (name.flatMap (escapeChar dots) ++ rest)) = false := by
        simp only [Bool.or_eq_true, not_or, Bool.not_eq_true] at hescaped
        rw [endsPlain_cons, hescaped.1.1.1, hescaped.1.2]
        exact hnone
      exact (plainTail_cons hc hends).trans (by rw [ih]; rfl)

end Escaped

/-- The spelling of a literal is cut off as it was written. -/
theorem plainTail_escapeLiteral (name : Text) {rest : Text} (hrest : endsPlain rest = true) :
    plainTail (escapeLiteral name ++ rest) = (escapeLiteral name, rest) := by
  have hdots (hdots : dotsAreAmbiguous name = false) :
      hasMarker name = false ∧ name.getLast? ≠ some '.' := by
    simpa [dotsAreAmbiguous] using hdots
  rw [escapeLiteral_eq]
  generalize dotsAreAmbiguous name = dots at hdots
  simp only
  split
  · rename_i hhyphens
    obtain ⟨tail, rfl, htail⟩ := eq_of_startsWithHyphens_escaped hhyphens
    have hword := plainTail_escaped dots tail hrest (fun h => ?_)
      (fun h _ => ?_)
    · show plainTail ('\\' :: '-' :: (tail.flatMap (escapeChar dots) ++ rest)) = _
      rw [plainTail_pair, hword]
      rfl
    · have hmarker := (hdots h).1
      rw [hasMarker, Bool.or_eq_false_iff] at hmarker
      exact hmarker.2
    · have hlast := (hdots h).2
      rwa [List.getLast?_cons_of_ne_nil htail] at hlast
  · exact plainTail_escaped dots name hrest (fun h => (hdots h).1) fun h _ => (hdots h).2

/-- A key is written as it is, so it may have no character that needs an escape, and no marker. -/
def isPlainKey (key : Text) : Bool :=
  key.all (fun c => !(isSpecial c || c == '\\' || isBlank c)) && !hasMarker key

theorem isPlainKey_iff {key : Text} :
    isPlainKey key = true ↔
      (∀ c ∈ key, isSpecial c = false ∧ c ≠ '\\' ∧ isBlank c = false) ∧ hasMarker key = false := by
  simp [isPlainKey, and_assoc]

theorem flatMap_escapeChar_of_plain {key : Text}
    (h : ∀ c ∈ key, isSpecial c = false ∧ c ≠ '\\' ∧ isBlank c = false) :
    key.flatMap (escapeChar false) = key := by
  induction key with
  | nil => rfl
  | cons c key ih =>
    obtain ⟨hspecial, hbackslash, hblank⟩ := h c (by simp)
    rw [List.flatMap_cons, ih fun d hd => h d (by simp [hd])]
    simp [escapeChar, hspecial, hbackslash, hblank]

/-- A flag is cut off as it was written. -/
theorem plainTail_flag {key rest : Text} (hkey : isPlainKey key = true) (hne : key ≠ [])
    (hrest : endsPlain rest = true) (hdot : rest.head? = some '.' → key.getLast? ≠ some '.') :
    plainTail ('-' :: '-' :: key ++ rest) = ('-' :: '-' :: key, rest) := by
  obtain ⟨hchars, hmarker⟩ := isPlainKey_iff.mp hkey
  have hsame : ('-' :: '-' :: key).flatMap (escapeChar false) = '-' :: '-' :: key := by
    rw [List.flatMap_cons, List.flatMap_cons, flatMap_escapeChar_of_plain hchars]
    rfl
  have hword := plainTail_escaped false ('-' :: '-' :: key) hrest
    (fun _ => by simpa [hasMarker, startsWithMarker] using hmarker) (fun _ hhead => ?_)
  · rwa [hsame] at hword
  · rw [List.getLast?_cons_of_ne_nil (by simp), List.getLast?_cons_of_ne_nil hne]
    exact hdot hhead

/-! ## §4 Spelling tokens -/

namespace Symbol

def spelling : Symbol → Text
  | .opening .round => ['(']
  | .opening .square => ['[']
  | .closing .round => [')']
  | .closing .square => [']']
  | .bar => ['|']
  | .equals => ['=']
  | .marker => repeatMarker
  | .flag key => '-' :: '-' :: key
  | .parameter name => '<' :: name ++ ['>']
  | .word name => escapeLiteral name

/-- The symbol is sound, and a key can be written. -/
def Spellable : Symbol → Prop
  | .word name => name ≠ []
  | .flag key => key ≠ [] ∧ isPlainKey key = true
  | .parameter name => '>' ∉ name
  | _ => True

/-- The symbol is written as a plain word, which goes on until something ends it. -/
def isPlain : Symbol → Bool
  | .word _ | .flag _ => true
  | _ => false

/-- A repetition marker may stand right behind the symbol: no blank at its end detaches it, and no
dot joins it. -/
def takesMarker : Symbol → Bool
  | .word name => !name.getLast?.any isBlank
  | .flag key => key.getLast? != some '.'
  | _ => true

end Symbol

theorem takeToken_single (position : Nat) (previous : Option Char) {c : Char}
    (h : isSingle c = true) (rest : Text) :
    takeToken position previous c rest = .ok ([c], rest) := by
  have hopen : c ≠ '<' := by
    rintro rfl
    cases h
  have hmarker : ¬ startsWithMarker (c :: rest) = true := by
    intro hmarker
    obtain ⟨tail, htail⟩ := startsWithMarker_iff.mp hmarker
    obtain ⟨rfl, -⟩ := List.cons.inj htail
    cases h
  unfold takeToken
  rw [if_neg hopen, if_neg hmarker, if_pos h]

theorem takeToken_marker (position : Nat) {previous : Option Char}
    (h : previous.all isBlank = false) (rest : Text) :
    takeToken position previous '.' ('.' :: '.' :: rest) = .ok (repeatMarker, rest) := by
  have hmarker : startsWithMarker ('.' :: '.' :: '.' :: rest) = true := rfl
  unfold takeToken
  rw [if_neg (by decide), if_pos hmarker, if_neg (by simp [h])]
  rfl

theorem takeToken_parameter (position : Nat) (previous : Option Char) {name : Text}
    (h : '>' ∉ name) (rest : Text) :
    takeToken position previous '<' (name ++ '>' :: rest) = .ok ('<' :: name ++ ['>'], rest) := by
  have hname : ∀ c ∈ name, decide (c ≠ '>') = true := by
    intro c hc
    simp only [decide_eq_true_eq]
    rintro rfl
    exact h hc
  unfold takeToken
  rw [if_pos rfl, List.dropWhile_append_of_pos hname, List.takeWhile_append_of_pos hname]
  simp

/-- The ways in which a token is cut off the text that begins with `c`. -/
inductive CutsOff (previous : Option Char) : (c : Char) → (rest token after : Text) → Prop where
  | parameter {name after : Text} (hname : '>' ∉ name) :
    CutsOff previous '<' (name ++ '>' :: after) ('<' :: name ++ ['>']) after
  | marker {after : Text} (hprevious : previous.all isBlank = false) :
    CutsOff previous '.' ('.' :: '.' :: after) repeatMarker after
  | single {c : Char} {rest : Text} (hsingle : isSingle c = true) : CutsOff previous c rest [c] rest
  | plain {c : Char} {rest token after : Text} (hopen : c ≠ '<')
    (hmarker : startsWithMarker (c :: rest) = false) (hsingle : isSingle c = false)
    (hplain : takePlain c rest = (token, after)) : CutsOff previous c rest token after

/-- A token is cut off in one of the ways, which do not depend on where it stands. -/
theorem takeToken_eq_ok_iff {position : Nat} {previous : Option Char} {c : Char}
    {rest token after : Text} :
    takeToken position previous c rest = .ok (token, after) ↔
      CutsOff previous c rest token after := by
  constructor
  · intro h
    unfold takeToken at h
    split at h
    · rename_i hopen
      split at h
      · cases h
      · rename_i close more hdrop
        cases h
        obtain rfl : close = '>' := by
          have hhead := List.head?_dropWhile_not (· ≠ '>') rest
          rw [hdrop] at hhead
          simpa using hhead
        have hname : '>' ∉ rest.takeWhile (· ≠ '>') := fun hmem => by
          simpa using List.mem_takeWhile_imp hmem
        have hcut : CutsOff previous '<' (rest.takeWhile (· ≠ '>') ++ '>' :: after)
            ('<' :: rest.takeWhile (· ≠ '>') ++ ['>']) after := .parameter hname
        rw [← hdrop, List.takeWhile_append_dropWhile] at hcut
        rwa [hopen]
    · rename_i hopen
      split at h
      · rename_i hmarker
        split at h
        · cases h
        · rename_i hprevious
          cases h
          obtain ⟨others, heq⟩ := startsWithMarker_iff.mp hmarker
          obtain ⟨rfl, rfl⟩ := List.cons.inj heq
          exact .marker (by simpa using hprevious)
      · rename_i hmarker
        split at h
        · rename_i hsingle
          cases h
          exact .single hsingle
        · rename_i hsingle
          exact .plain hopen (by simpa using hmarker) (by simpa using hsingle) (Except.ok.inj h)
  · intro h
    cases h with
    | parameter hname => exact takeToken_parameter position previous hname after
    | marker hprevious => exact takeToken_marker position hprevious after
    | single hsingle => exact takeToken_single position previous hsingle rest
    | plain hopen hmarker hsingle hplain =>
      unfold takeToken
      rw [if_neg hopen, if_neg (by simp [hmarker]), if_neg (by simp [hsingle]), hplain]

/-- A text that is cut off as a plain word is a token. -/
theorem takeToken_of_plainTail (position : Nat) (previous : Option Char) {c : Char}
    {text rest : Text} (h : plainTail (c :: text ++ rest) = (c :: text, rest)) :
    isBlank c = false ∧ takeToken position previous c (text ++ rest) = .ok (c :: text, rest) := by
  have hends : endsPlain (c :: (text ++ rest)) = false := by
    rw [Bool.eq_false_iff]
    intro hends
    rw [List.cons_append, plainTail_of_endsPlain hends] at h
    cases h
  have hparts := hends
  rw [endsPlain_cons, Bool.or_eq_false_iff, Bool.or_eq_false_iff] at hparts
  exact ⟨hparts.1.2, (takeToken_of_plain position previous hends).trans (congrArg Except.ok h)⟩

theorem escapeLiteral_ne_nil {name : Text} (h : name ≠ []) : escapeLiteral name ≠ [] := by
  intro hnil
  exact h (by rw [← decode_escapeLiteral name, hnil, decode_nil])

section Tokens

variable {symbol : Symbol}

/-- The spelling of a symbol is cut off as a token. A plain word needs something behind it that
ends it; a marker needs something before it that it can mark. -/
theorem takeToken_spelling (hspell : symbol.Spellable) {rest : Text}
    (hplain : symbol.isPlain = true → endsPlain rest = true)
    (hdot : rest.head? = some '.' → symbol.takesMarker = true) {previous : Option Char}
    (hprevious : symbol = .marker → previous.all isBlank = false) (position : Nat) :
    ∃ c text, symbol.spelling = c :: text ∧ isBlank c = false ∧
      takeToken position previous c (text ++ rest) = .ok (symbol.spelling, rest) := by
  cases symbol with
  | opening bracket =>
    cases bracket with
    | round => exact ⟨'(', [], rfl, rfl, takeToken_single position previous rfl rest⟩
    | square => exact ⟨'[', [], rfl, rfl, takeToken_single position previous rfl rest⟩
  | closing bracket =>
    cases bracket with
    | round => exact ⟨')', [], rfl, rfl, takeToken_single position previous rfl rest⟩
    | square => exact ⟨']', [], rfl, rfl, takeToken_single position previous rfl rest⟩
  | bar => exact ⟨'|', [], rfl, rfl, takeToken_single position previous rfl rest⟩
  | equals => exact ⟨'=', [], rfl, rfl, takeToken_single position previous rfl rest⟩
  | marker =>
    exact ⟨'.', ['.', '.'], rfl, rfl, takeToken_marker position (hprevious rfl) rest⟩
  | parameter name =>
    refine ⟨'<', name ++ ['>'], rfl, rfl, ?_⟩
    rw [List.append_assoc]
    exact takeToken_parameter position previous hspell rest
  | flag key =>
    have hcut := plainTail_flag hspell.2 hspell.1 (hplain rfl) fun h => by
      simpa [Symbol.takesMarker] using hdot h
    obtain ⟨hblank, htake⟩ := takeToken_of_plainTail position previous hcut
    exact ⟨'-', '-' :: key, rfl, hblank, htake⟩
  | word name =>
    obtain ⟨c, text, heq⟩ := List.exists_cons_of_ne_nil (escapeLiteral_ne_nil hspell)
    have hcut := plainTail_escapeLiteral name (hplain rfl)
    rw [heq] at hcut
    obtain ⟨hblank, htake⟩ := takeToken_of_plainTail position previous hcut
    exact ⟨c, text, heq, hblank, htake.trans (by rw [Symbol.spelling, heq])⟩

/-- A plain word that does not look like a flag stands for what it means. -/
theorem symbol_of_plain {text : Text} (hends : endsPlain text = false)
    (hhyphens : startsWithHyphens text = false) (start : Nat) :
    (Token.mk start text).symbol = .word (decode text) := by
  unfold Token.symbol
  simp only
  split
  case h_10 => rfl
  case h_9 => cases hhyphens
  all_goals cases hends

/-- The spelling of a symbol means the symbol. -/
theorem symbol_of_spelling (hspell : symbol.Spellable) (start : Nat) :
    (Token.mk start symbol.spelling).symbol = symbol := by
  cases symbol with
  | opening bracket => cases bracket <;> rfl
  | closing bracket => cases bracket <;> rfl
  | bar => rfl
  | equals => rfl
  | marker => rfl
  | parameter name =>
    show Symbol.parameter ((name ++ ['>']).dropLast) = _
    rw [List.dropLast_concat]
  | flag key =>
    obtain ⟨hne, hkey⟩ := hspell
    obtain ⟨c, rest, rfl⟩ := List.exists_cons_of_ne_nil hne
    have hbackslash : '\\' ∉ c :: rest := fun hmem => ((isPlainKey_iff.mp hkey).1 _ hmem).2.1 rfl
    exact congrArg Symbol.flag (decode_of_no_backslash hbackslash)
  | word name =>
    have hends : endsPlain (escapeLiteral name) = false := by
      rw [Bool.eq_false_iff]
      intro hends
      have hcut : plainTail (escapeLiteral name ++ []) = _ := plainTail_escapeLiteral name rfl
      rw [List.append_nil, plainTail_of_endsPlain hends] at hcut
      exact escapeLiteral_ne_nil hspell (Prod.ext_iff.mp hcut).1.symm
    have hhyphens : startsWithHyphens (escapeLiteral name) = false := by
      rw [escapeLiteral_eq]
      simp only
      split
      · rfl
      · rename_i hhyphens
        simpa using hhyphens
    rw [Symbol.spelling, symbol_of_plain hends hhyphens, decode_escapeLiteral]

theorem getLast?_escapeLiteral (name : Text) : (escapeLiteral name).getLast? = name.getLast? := by
  have hescaped (dots : Bool) : (name.flatMap (escapeChar dots)).getLast? = name.getLast? := by
    rcases List.eq_nil_or_concat name with rfl | ⟨front, c, rfl⟩
    · rfl
    · have hchar : ∃ front, escapeChar dots c = front ++ [c] := by
        unfold escapeChar
        split
        · exact ⟨['\\'], rfl⟩
        · exact ⟨[], rfl⟩
      obtain ⟨escape, hescape⟩ := hchar
      simp [hescape]
  rw [escapeLiteral_eq]
  simp only
  split
  · rename_i hhyphens
    rw [List.getLast?_cons_of_ne_nil, hescaped]
    rintro hnil
    rw [hnil] at hhyphens
    cases hhyphens
  · exact hescaped _

/-- What takes a marker does not end in a blank. -/
theorem getLast?_spelling (hspell : symbol.Spellable) (h : symbol.takesMarker = true) :
    symbol.spelling.getLast?.all isBlank = false := by
  cases symbol with
  | opening bracket => cases bracket <;> rfl
  | closing bracket => cases bracket <;> rfl
  | bar => rfl
  | equals => rfl
  | marker => rfl
  | parameter name =>
    rw [Symbol.spelling, List.getLast?_concat]
    rfl
  | flag key =>
    obtain ⟨hne, hkey⟩ := hspell
    have hlast := (isPlainKey_iff.mp hkey).1 _ (List.getLast_mem hne)
    rw [Symbol.spelling, List.getLast?_cons_of_ne_nil (by simp), List.getLast?_cons_of_ne_nil hne,
      List.getLast?_eq_some_getLast hne]
    exact hlast.2.2
  | word name =>
    rw [Symbol.spelling, getLast?_escapeLiteral]
    have hlast : name.getLast? = some (name.getLast hspell) := List.getLast?_eq_some_getLast hspell
    rw [Symbol.takesMarker, hlast] at h
    rw [hlast]
    simpa using h

end Tokens

/-! ## §5 Pieces -/

/-- A part of a usage: a blank, or a token as it is written. -/
inductive Piece where
  | blank
  | token (symbol : Symbol)

namespace Piece

def text : Piece → Text
  | .blank => [' ']
  | .token symbol => symbol.spelling

def symbol? : Piece → Option Symbol
  | .blank => none
  | .token symbol => some symbol

def Spellable : Piece → Prop
  | .blank => True
  | .token symbol => symbol.Spellable

def isPlain : Piece → Bool
  | .blank => false
  | .token symbol => symbol.isPlain

def takesMarker : Piece → Bool
  | .blank => false
  | .token symbol => symbol.takesMarker

/-- The pieces stay apart when the one is written right before the other. -/
def Adjoins (piece next : Piece) : Prop :=
  (piece.isPlain = true → next.isPlain = false) ∧
    (next = .token .marker → piece.takesMarker = true)

end Piece

def textOf (pieces : List Piece) : Text := pieces.flatMap Piece.text

def symbolsOf (pieces : List Piece) : List Symbol := pieces.filterMap Piece.symbol?

section Pieces

variable {piece next : Piece} {pieces : List Piece}

theorem textOf_cons (piece : Piece) (pieces : List Piece) :
    textOf (piece :: pieces) = piece.text ++ textOf pieces := List.flatMap_cons

/-- A piece that is no plain word ends one. -/
theorem endsPlain_textOf (h : next.isPlain = false) : endsPlain (textOf (next :: pieces)) = true := by
  rw [textOf_cons]
  cases next with
  | blank => rfl
  | token symbol =>
    cases symbol with
    | opening bracket => cases bracket <;> rfl
    | closing bracket => cases bracket <;> rfl
    | flag key => cases h
    | word name => cases h
    | _ => rfl

/-- Of the pieces that are no plain words only a marker begins with a dot. -/
theorem eq_marker_of_head_textOf (h : next.isPlain = false)
    (hdot : (textOf (next :: pieces)).head? = some '.') : next = .token .marker := by
  rw [textOf_cons] at hdot
  cases next with
  | blank => cases hdot
  | token symbol =>
    cases symbol with
    | opening bracket => cases bracket <;> cases hdot
    | closing bracket => cases bracket <;> cases hdot
    | marker => rfl
    | flag key => cases h
    | word name => cases h
    | _ => cases hdot

/-- Only behind plain words is there something a marker cannot follow. -/
theorem Symbol.takesMarker_of_not_isPlain {symbol : Symbol} (h : symbol.isPlain = false) :
    symbol.takesMarker = true := by
  cases symbol <;> first | rfl | cases h

/-- What comes after a piece ends a plain word, and makes no marker with a dot at its end. -/
theorem ends_of_adjoins {symbol : Symbol}
    (h : ∀ next ∈ pieces.head?, Piece.Adjoins (.token symbol) next) :
    (symbol.isPlain = true → endsPlain (textOf pieces) = true) ∧
      ((textOf pieces).head? = some '.' → symbol.takesMarker = true) := by
  cases pieces with
  | nil => exact ⟨fun _ => rfl, nofun⟩
  | cons next pieces =>
    obtain ⟨hapart, hmarker⟩ := h next rfl
    refine ⟨fun hplain => endsPlain_textOf (hapart hplain), fun hdot => ?_⟩
    cases hplain : symbol.isPlain with
    | false => exact Symbol.takesMarker_of_not_isPlain hplain
    | true => exact hmarker (eq_marker_of_head_textOf (hapart hplain) hdot)

theorem tokensFrom_blank {position : Nat} {previous : Option Char} {c : Char} {rest : Text}
    (h : isBlank c = true) :
    tokensFrom position previous (c :: rest) = tokensFrom (position + 1) (some c) rest := by
  rw [tokensFrom, if_pos h]

theorem tokensFrom_token {position : Nat} {previous : Option Char} {c : Char}
    {rest text after : Text} (hblank : isBlank c = false)
    (htake : takeToken position previous c rest = .ok (text, after)) :
    tokensFrom position previous (c :: rest) =
      (tokensFrom (position + text.length) text.getLast? after).map (⟨position, text⟩ :: ·) := by
  rw [tokensFrom, if_neg (by simp [hblank])]
  split
  · rename_i herror
    cases htake.symm.trans herror
  · rename_i hok
    cases htake.symm.trans hok
    rfl

/-- Pieces that stay apart are read as they were written. The induction is on the pieces; what
comes after a piece is read from where it was cut off. -/
theorem tokensFrom_of_pieces (hspell : ∀ piece ∈ pieces, piece.Spellable)
    (hchain : pieces.IsChain Piece.Adjoins) (position : Nat) (previous : Option Char)
    (hprevious : pieces.head? = some (.token .marker) → previous.all isBlank = false) :
    ∃ found, tokensFrom position previous (textOf pieces) = .ok found ∧
      found.map Token.symbol = symbolsOf pieces := by
  induction pieces generalizing position previous with
  | nil => exact ⟨[], by rw [textOf, List.flatMap_nil, tokensFrom], rfl⟩
  | cons piece pieces ih =>
    obtain ⟨hadjoins, hchain⟩ := List.isChain_cons.mp hchain
    have ih := @ih (fun other hother => hspell other (by simp [hother])) hchain
    rw [textOf_cons]
    cases piece with
    | blank =>
      obtain ⟨found, hfound, hsymbols⟩ := ih (position + 1) (some ' ') fun hhead => by
        cases (hadjoins _ hhead).2 rfl
      exact ⟨found, (tokensFrom_blank rfl).trans hfound, hsymbols⟩
    | token symbol =>
      have hsymbol : symbol.Spellable := hspell (.token symbol) (by simp)
      obtain ⟨hends, hdot⟩ := ends_of_adjoins hadjoins
      obtain ⟨c, text, hspelling, hblank, htake⟩ := takeToken_spelling hsymbol hends hdot
        (fun hmarker => hprevious (by rw [hmarker]; rfl)) position
      obtain ⟨found, hfound, hsymbols⟩ := ih (position + symbol.spelling.length)
        symbol.spelling.getLast? fun hhead =>
          getLast?_spelling hsymbol ((hadjoins _ hhead).2 rfl)
      refine ⟨⟨position, symbol.spelling⟩ :: found, ?_, ?_⟩
      · have htoken := tokensFrom_token hblank htake
        rw [hfound, ← List.cons_append, ← hspelling] at htoken
        exact htoken
      · rw [List.map_cons, hsymbols, symbol_of_spelling hsymbol]
        rfl

/-- A usage that is written in pieces which stay apart is read back as it was written. -/
theorem tokens_of_pieces (hspell : ∀ piece ∈ pieces, piece.Spellable)
    (hchain : pieces.IsChain Piece.Adjoins) (hhead : pieces.head? ≠ some (.token .marker)) :
    ∃ found, tokens (textOf pieces) = .ok found ∧ found.map Token.symbol = symbolsOf pieces :=
  tokensFrom_of_pieces hspell hchain 0 none fun h => absurd h hhead

end Pieces

end Usage

end Synopsis
