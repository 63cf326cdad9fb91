/-
Synopsis.Proofs.Usage.Concatenation — usages that are put together of others.

A text that is read as a usage by itself is read in the same way as a part of a longer one,
if what follows it keeps its last token apart: it begins with a blank or a special
character, and the text does not end in a backslash, which would take that character
away. What stands before it can only help, since the mark of repetition is all that looks
back, and no text begins with one.

More generally, a token is cut off in the same way with something else behind it that may
stand in the place of what it was cut off from (`StandsFor`, `takeToken_of_standsFor`).

`Reads` says what symbols a text is read as, wherever it stands. It is put together of
pieces (`Reads.append`, `Reads.single`, `Reads.blank`), as the text is.
-/
import Synopsis.Proofs.Usage.Grammar
import Synopsis.Proofs.Usage.Spelling

namespace Synopsis

namespace Usage

/-! ## §1 Tokens before something else -/

/-- What begins with a blank or a special character keeps a token before it apart, and so does the
end. -/
def KeepsApart (next : Text) : Prop := ∀ c ∈ next.head?, isSpecial c = true ∨ isBlank c = true

section Tokens

variable {text next after : Text} {position : Nat} {previous : Option Char}

theorem keepsApart_nil : KeepsApart [] := by simp [KeepsApart]

theorem keepsApart_cons {c : Char} (h : isSpecial c = true ∨ isBlank c = true) (rest : Text) :
    KeepsApart (c :: rest) := by
  simpa [KeepsApart] using h

theorem KeepsApart.endsPlain (h : KeepsApart next) : endsPlain next = true := by
  match next with
  | [] => rfl
  | c :: rest => rcases h c rfl with hc | hc <;> simp [endsPlain_cons, hc]

/-- Nothing that stands apart begins with a dot, so no mark of repetition goes over into it. -/
theorem KeepsApart.startsWithMarker_append (h : KeepsApart next) (text : Text) :
    text ≠ [] → startsWithMarker (text ++ next) = startsWithMarker text := by
  intro hne
  have hdot : ∀ rest, next ≠ '.' :: rest := by
    rintro rest rfl
    rcases h '.' rfl with hc | hc <;> revert hc <;> decide
  rw [Bool.eq_iff_iff, startsWithMarker_iff, startsWithMarker_iff]
  constructor
  · rintro ⟨rest, heq⟩
    match text, hne with
    | [_], _ => exact absurd (List.cons.inj heq).2 (hdot _)
    | [_, _], _ => exact absurd (List.cons.inj (List.cons.inj heq).2).2 (hdot _)
    | _ :: _ :: _ :: others, _ =>
      simp only [List.cons_append, List.cons.injEq] at heq
      obtain ⟨rfl, rfl, rfl, -⟩ := heq
      exact ⟨others, rfl⟩
  · rintro ⟨rest, rfl⟩
    exact ⟨rest ++ next, by simp⟩

theorem KeepsApart.endsPlain_append (h : KeepsApart next) {c : Char} {rest : Text} :
    Usage.endsPlain (c :: rest ++ next) = Usage.endsPlain (c :: rest) := by
  have hmarker := h.startsWithMarker_append (c :: rest) (by simp)
  rw [List.cons_append] at hmarker ⊢
  rw [endsPlain_cons, endsPlain_cons, hmarker]

/-- Behind a token, `next` may stand in the place of `after`: it ends a plain word if `after` does,
and makes no mark of repetition with the end of the token if `after` does not. -/
structure StandsFor (next after : Text) : Prop where
  endsPlain : endsPlain after = true → endsPlain next = true
  marker (front : Text) : front ≠ [] → startsWithMarker (front ++ next) = true →
    startsWithMarker (front ++ after) = true

/-- What keeps a token apart may stand for anything that follows. -/
theorem KeepsApart.standsFor (h : KeepsApart next) : StandsFor next after where
  endsPlain _ := h.endsPlain
  marker front hne hmarker := by
    rw [h.startsWithMarker_append front hne] at hmarker
    obtain ⟨others, rfl⟩ := startsWithMarker_iff.mp hmarker
    exact startsWithMarker_iff.mpr ⟨others ++ after, by simp⟩

/-- It may stand behind what follows as well. -/
theorem KeepsApart.standsFor_append (h : KeepsApart next) : StandsFor (after ++ next) after where
  endsPlain hends := by
    cases after with
    | nil => exact h.endsPlain
    | cons c rest => rwa [h.endsPlain_append]
  marker front hne hmarker := by
    rwa [← List.append_assoc, h.startsWithMarker_append _ (by simp [hne])] at hmarker

/-- What is left of a text does not end in a backslash if the text does not. -/
theorem getLast?_ne_of_cons {c : Char} (hlast : next = [] ∨ (c :: text).getLast? ≠ some '\\') :
    next = [] ∨ text.getLast? ≠ some '\\' := by
  refine hlast.imp_right fun h => ?_
  cases text with
  | nil => simp
  | cons => simpa using h

/-- What belongs to a plain word belongs to it with something else behind it. Only where nothing
stood behind it, a backslash at its end would take what now stands there. -/
theorem plainTail_of_standsFor (text : Text) (h : StandsFor next (plainTail text).2)
    (hlast : (plainTail text).2 = [] → next = [] ∨ text.getLast? ≠ some '\\') :
    plainTail ((plainTail text).1 ++ next) = ((plainTail text).1, next) := by
  fun_induction plainTail text with
  | case1 => exact plainTail_of_endsPlain (h.endsPlain rfl)
  | case2 =>
    obtain rfl := (hlast rfl).resolve_right (by simp)
    simp [plainTail]
  | case3 d rest ih =>
    have ih := ih h fun hnil => getLast?_ne_of_cons (getLast?_ne_of_cons (hlast hnil))
    simp only [cutAfter, List.cons_append, List.nil_append] at ih ⊢
    rw [plainTail_pair, ih]
    rfl
  | case4 _ _ _ hends => exact plainTail_of_endsPlain (h.endsPlain hends)
  | case5 c rest hc hends ih =>
    have ih := ih h fun hnil => getLast?_ne_of_cons (hlast hnil)
    have hends' : Usage.endsPlain (c :: ((plainTail rest).1 ++ next)) = false := by
      have hparts : (isSpecial c = false ∧ isBlank c = false) ∧
          startsWithMarker (c :: rest) = false := by
        simpa [endsPlain_cons] using hends
      have hmarker : startsWithMarker (c :: ((plainTail rest).1 ++ next)) = false := by
        rw [Bool.eq_false_iff]
        intro hmarker
        have hafter := h.marker (c :: (plainTail rest).1) (by simp) hmarker
        rw [List.cons_append, cutAfter, plainTail_append, hparts.2] at hafter
        cases hafter
      rw [endsPlain_cons, hparts.1.1, hparts.1.2, hmarker]
      rfl
    simp only [cutAfter, List.cons_append, List.nil_append] at ih ⊢
    rw [plainTail_cons hc hends', ih]
    rfl

theorem takePlain_of_standsFor {c : Char} {rest : Text}
    (htake : takePlain c rest = (c :: text, after)) (h : StandsFor next after)
    (hlast : after = [] → next = [] ∨ (c :: rest).getLast? ≠ some '\\') :
    takePlain c (text ++ next) = (c :: text, next) := by
  unfold takePlain at htake ⊢
  split
  · rename_i hc
    rw [if_pos hc] at htake
    have hnext : StandsFor next (plainTail (c :: rest)).2 := by rwa [htake]
    have htail := plainTail_of_standsFor (c :: rest) hnext (by rwa [htake])
    simpa only [htake, List.cons_append] using htail
  · rename_i hc
    rw [if_neg hc] at htake
    obtain ⟨htext, hafter⟩ := Prod.mk.inj htake
    obtain rfl : (plainTail rest).1 = text := by simpa [cutAfter] using htext
    obtain rfl : (plainTail rest).2 = after := by simpa [cutAfter] using hafter
    rw [plainTail_of_standsFor rest h fun hnil => getLast?_ne_of_cons (hlast hnil)]
    rfl

/-- A mark of repetition is cut off where one stands, and only behind something that is not
blank. -/
theorem marker_of_takeToken {c : Char} {rest : Text}
    (h : takeToken position previous c rest = .ok (repeatMarker, after)) :
    startsWithMarker (c :: rest) = true ∧ previous.all isBlank = false := by
  have hstarts : startsWithMarker (c :: rest) = true := by
    rw [← (takeToken_append h).2]
    rfl
  refine ⟨hstarts, ?_⟩
  generalize htoken : repeatMarker = token at h
  cases takeToken_eq_ok_iff.mp h with
  | parameter => cases htoken
  | marker hprevious => exact hprevious
  | single => cases htoken
  | plain _ hmarker =>
    rw [hstarts] at hmarker
    cases hmarker

/-- A token is cut off in the same way with something else behind it, wherever it stands; a mark of
repetition has to stand behind something. -/
theorem takeToken_of_standsFor {c : Char} {rest token : Text}
    (htake : takeToken position previous c rest = .ok (token, after)) (h : StandsFor next after)
    (hlast : after = [] → next = [] ∨ (c :: rest).getLast? ≠ some '\\') (position' : Nat)
    {previous' : Option Char}
    (hprevious : token = repeatMarker → previous'.all isBlank = false) :
    ∃ others, token = c :: others ∧
      takeToken position' previous' c (others ++ next) = .ok (token, next) := by
  simp only [takeToken_eq_ok_iff]
  cases takeToken_eq_ok_iff.mp htake with
  | @parameter name _ hname => exact ⟨name ++ ['>'], rfl, by simpa using .parameter hname⟩
  | marker => exact ⟨['.', '.'], rfl, .marker (hprevious rfl)⟩
  | single hsingle => exact ⟨[], rfl, .single hsingle⟩
  | plain hopen hmarker hsingle hplain =>
    obtain ⟨hne, happend⟩ := takeToken_append htake
    obtain ⟨d, others, rfl⟩ := List.exists_cons_of_ne_nil hne
    obtain ⟨rfl, hrest⟩ := List.cons.inj happend
    refine ⟨others, rfl, .plain hopen ?_ hsingle (takePlain_of_standsFor hplain h hlast)⟩
    rw [Bool.eq_false_iff]
    intro hstarts
    have hafter := h.marker (d :: others) (by simp) hstarts
    rw [happend, hmarker] at hafter
    cases hafter

/-- A token is cut off in the same way wherever it stands, and whatever stands behind it that keeps it
apart. -/
theorem takeToken_append_of_keepsApart {c : Char} {rest token after : Text}
    (h : takeToken position previous c rest = .ok (token, after)) (hnext : KeepsApart next)
    (hlast : next = [] ∨ (c :: rest).getLast? ≠ some '\\') (position' : Nat)
    {previous' : Option Char}
    (hprevious : previous'.all isBlank = true → previous.all isBlank = true) :
    takeToken position' previous' c (rest ++ next) = .ok (token, after ++ next) := by
  have hbehind (hmarker : token = repeatMarker) : previous'.all isBlank = false := by
    rw [hmarker] at h
    rw [Bool.eq_false_iff]
    intro hblank
    rw [(marker_of_takeToken h).2] at hprevious
    cases hprevious hblank
  obtain ⟨others, rfl, htake⟩ := takeToken_of_standsFor h hnext.standsFor_append
    (by rintro rfl; simpa using hlast) position' hbehind
  have hrest : others ++ after = rest := (List.cons.inj (takeToken_append h).2).2
  rwa [← List.append_assoc, hrest] at htake

/-- A text that is cut into tokens is cut into the same ones behind anything that does not end in a
blank, or behind a blank if it was so before, and the text behind it is cut by itself. -/
theorem tokensFrom_append {found others : List Token} {position' : Nat} {previous' : Option Char}
    (h : tokensFrom position previous text = .ok found) (hnext : KeepsApart next)
    (hlast : next = [] ∨ text.getLast? ≠ some '\\')
    (hprevious : previous'.all isBlank = true → previous.all isBlank = true)
    (hothers : tokensFrom (position' + text.length) (text.getLast?.or previous') next = .ok others) :
    ∃ moved, moved.map Token.symbol = found.map Token.symbol ∧
      tokensFrom position' previous' (text ++ next) = .ok (moved ++ others) := by
  fun_induction tokensFrom position previous text generalizing found position' previous' with
  | case1 =>
    cases h
    exact ⟨[], rfl, hothers⟩
  | case2 position previous c rest hblank ih =>
    rw [List.cons_append, tokensFrom_blank hblank]
    refine ih h (getLast?_ne_of_cons hlast) (fun h => h) ?_
    rw [List.length_cons, List.getLast?_cons, Option.some_or] at hothers
    rw [Option.or_some, Nat.add_assoc, Nat.add_comm 1]
    exact hothers
  | case3 => cases h
  | case4 position previous c rest hblank token after htake ih =>
    obtain ⟨hne, happend⟩ := takeToken_append htake
    have hend : (c :: rest).getLast? = after.getLast?.or token.getLast? := by
      rw [← happend, List.getLast?_append]
    have hlast' : next = [] ∨ after.getLast? ≠ some '\\' := hlast.imp_right fun h hafter =>
      h (by rw [hend, hafter, Option.some_or])
    have hbehind : tokensFrom (position' + token.length + after.length)
        (after.getLast?.or token.getLast?) next = .ok others := by
      rw [← hend, List.getLast?_cons, Nat.add_assoc, ← List.length_append, happend]
      rwa [List.getLast?_cons, Option.some_or] at hothers
    generalize htokens : tokensFrom (position + token.length) token.getLast? after = tokens at h
    cases tokens with
    | error error => cases h
    | ok tokens =>
      cases h
      obtain ⟨moved, hmoved, hfound⟩ := ih htokens hlast' (fun h => h) hbehind
      refine ⟨⟨position', token⟩ :: moved, by rw [List.map_cons, hmoved]; rfl, ?_⟩
      rw [List.cons_append, tokensFrom_token (by simpa using hblank)
        (takeToken_append_of_keepsApart htake hnext hlast position' hprevious), hfound]
      rfl

end Tokens

/-! ## §2 What a text is read as -/

/-- The text is read as the symbols wherever it stands. -/
def Reads (text : Text) (symbols : List Symbol) : Prop :=
  ∀ previous position, ∃ found, tokensFrom position previous text = .ok found ∧
    found.map Token.symbol = symbols

section Reading

variable {text next : Text} {symbols others : List Symbol}

/-- What stands before a usage makes no difference, since no usage begins with a mark of
repetition. -/
theorem reads_of_tokens {found : List Token} (h : tokens text = .ok found) :
    Reads text (found.map Token.symbol) := by
  intro previous position
  have hend : tokensFrom (position + text.length) (text.getLast?.or previous) [] = .ok [] := by
    rw [tokensFrom]
  obtain ⟨moved, hmoved, hfound⟩ := tokensFrom_append h keepsApart_nil (.inl rfl) (fun _ => rfl) hend
  rw [List.append_nil] at hfound
  exact ⟨_, hfound, by rw [List.append_nil, hmoved]⟩

/-- Texts of which the second one keeps the first one apart are read one after the other. -/
theorem Reads.append (h : Reads text symbols) (hlast : text.getLast? ≠ some '\\')
    (hnext : KeepsApart next) (hothers : Reads next others) :
    Reads (text ++ next) (symbols ++ others) := by
  intro previous position
  obtain ⟨found, hfound, rfl⟩ := h previous 0
  obtain ⟨behind, hbehind, rfl⟩ := hothers (text.getLast?.or previous) (position + text.length)
  obtain ⟨moved, hmoved, hall⟩ := tokensFrom_append hfound hnext (.inr hlast) (fun h => h) hbehind
  exact ⟨_, hall, by rw [List.map_append, hmoved]⟩

theorem Reads.nil : Reads [] [] := fun _ _ => ⟨[], by rw [tokensFrom], rfl⟩

theorem Reads.blank {c : Char} (hblank : isBlank c = true) (h : Reads text symbols) :
    Reads (c :: text) symbols := by
  intro previous position
  rw [tokensFrom_blank hblank]
  exact h (some c) (position + 1)

/-- A character that is a token by itself is read as its symbol. -/
theorem Reads.single (c : Char) {symbol : Symbol} (h : Reads text symbols)
    (hsingle : isSingle c = true) (hsymbol : (Token.mk 0 [c]).symbol = symbol) :
    Reads (c :: text) (symbol :: symbols) := by
  intro previous position
  obtain ⟨found, hfound, rfl⟩ := h (some c) (position + 1)
  have hblank : isBlank c = false := by
    have hc : c = '(' ∨ c = ')' ∨ c = '[' ∨ c = ']' ∨ c = '|' ∨ c = '=' := by
      simpa [isSingle] using hsingle
    rcases hc with rfl | rfl | rfl | rfl | rfl | rfl <;> rfl
  refine ⟨⟨position, [c]⟩ :: found, ?_, congrArg (· :: _) hsymbol⟩
  rw [tokensFrom_token hblank (takeToken_single position previous hsingle text)]
  exact congrArg (Except.map _) hfound

/-- A usage is compiled to the tree that the grammar has for the symbols it is read as. -/
theorem parse_of_reads {tree : Node} (h : Reads text symbols) (hbuilds : Builds [] {} symbols tree) :
    parse text = .ok tree := by
  obtain ⟨found, hfound, rfl⟩ := h none 0
  exact parse_eq_ok_iff.mpr ⟨found, hfound, hbuilds⟩

/-- The symbols of a usage that compiles. -/
theorem exists_reads_of_parse {tree : Node} (h : parse text = .ok tree) :
    ∃ symbols, Reads text symbols ∧ Builds [] {} symbols tree := by
  obtain ⟨found, hfound, hbuilds⟩ := parse_eq_ok_iff.mp h
  exact ⟨_, reads_of_tokens hfound, hbuilds⟩

end Reading

end Usage

end Synopsis
