/-
Synopsis.Proofs.Usage.Spacing — the blanks between the tokens of a usage.

The tokens of a usage lie in it one behind the other with nothing but blanks between them
(`LaidOut`), so nothing that is not blank is lost. `respaced` writes their texts again, with
one space between neighbours and none before a mark of repetition, and this is cut into the
same texts (`tokens_respaced`).

That a token is cut off depends on what stands behind it only in so far as that ends a
plain word and makes no mark of repetition with the end of the token (`StandsFor`). A mark
of repetition always stands right behind the token before it, in the usage and when it is
written again; before any other token a space stands, which keeps apart what is before it.
Only the last token may end in a backslash that escapes nothing.
-/
import Synopsis.Proofs.Line.Whole
import Synopsis.Proofs.Match.Soundness
import Synopsis.Proofs.Usage.Concatenation

namespace Synopsis

namespace Usage

/-! ## §1 Where the tokens lie -/

/-- The tokens lie in the text, which begins at the given offset, one behind the other, and
everything before, between and behind them is blank. -/
inductive LaidOut : Nat → List Token → Text → Prop where
  | nil {position : Nat} {gap : Text} (hgap : ∀ c ∈ gap, isBlank c = true) :
    LaidOut position [] gap
  | cons {position : Nat} {gap rest : Text} {token : Token} {tokens : List Token}
    (hgap : ∀ c ∈ gap, isBlank c = true) (hne : token.text ≠ [])
    (hstart : token.start = position + gap.length) (hrest : LaidOut token.stop tokens rest) :
    LaidOut position (token :: tokens) (gap ++ token.text ++ rest)

section Laid

variable {position : Nat} {previous : Option Char} {text : Text} {found : List Token}

theorem LaidOut.blank {c : Char} (hblank : isBlank c = true)
    (h : LaidOut (position + 1) found text) : LaidOut position found (c :: text) := by
  have hcons {gap : Text} (hgap : ∀ d ∈ gap, isBlank d = true) :
      ∀ d ∈ c :: gap, isBlank d = true := by
    simpa using ⟨hblank, hgap⟩
  cases h with
  | nil hgap => exact .nil (hcons hgap)
  | @cons _ gap rest token tokens hgap hne hstart hrest =>
    have hstart : token.start = position + (c :: gap).length := by
      rw [hstart, List.length_cons]
      omega
    simpa using LaidOut.cons (hcons hgap) hne hstart hrest

/-- The tokens that a text is cut into lie in it. -/
theorem laidOut_of_tokensFrom (h : tokensFrom position previous text = .ok found) :
    LaidOut position found text := by
  fun_induction tokensFrom position previous text generalizing found with
  | case1 =>
    cases h
    exact .nil (by simp)
  | case2 _ _ _ _ hblank ih => exact (ih h).blank hblank
  | case3 => cases h
  | case4 position _ _ _ _ text after htake ih =>
    obtain ⟨tokens, htokens, rfl⟩ := map_eq_ok_iff.mp h
    obtain ⟨hne, happend⟩ := takeToken_append htake
    rw [← happend]
    have hgap : ∀ c ∈ ([] : Text), isBlank c = true := by simp
    exact LaidOut.cons hgap hne (rfl : (Token.mk position text).start = _) (ih htokens)

/-- The span of the token has characters and lies in the text, and these are its characters. -/
structure Spans (position : Nat) (text : Text) (token : Token) : Prop where
  start_lt : token.start < token.stop
  position_le : position ≤ token.start
  stop_le : token.stop ≤ position + text.length
  text_eq : (text.drop (token.start - position)).take (token.stop - token.start) = token.text

theorem LaidOut.spans (h : LaidOut position found text) :
    ∀ token ∈ found, Spans position text token := by
  induction h with
  | nil => simp
  | @cons position gap rest token tokens _ hne hstart _ ih =>
    have hlength := List.length_pos_iff.mpr hne
    have hstop : token.stop = position + gap.length + token.text.length := by
      rw [Token.stop, hstart]
    intro other hother
    rcases List.mem_cons.mp hother with rfl | hother
    · refine ⟨by omega, by omega, by simp; omega, ?_⟩
      rw [show other.start - position = gap.length by omega,
        show other.stop - other.start = other.text.length by omega, List.append_assoc,
        List.drop_left, List.take_left]
    · obtain ⟨hlt, hle, hend, htext⟩ := ih other hother
      refine ⟨hlt, by omega, by simp; omega, ?_⟩
      rw [show other.start - position =
          (gap ++ token.text).length + (other.start - token.stop) by simp; omega,
        List.drop_length_add_append, htext]

/-- No token begins before the one in front of it ends. -/
theorem LaidOut.pairwise (h : LaidOut position found text) :
    found.Pairwise fun token next => token.stop ≤ next.start := by
  induction h with
  | nil => exact .nil
  | cons _ _ _ hrest ih =>
    exact .cons (fun next hnext => (hrest.spans next hnext).position_le) ih

/-- A character that is in no token is blank. -/
theorem LaidOut.isBlank_of_outside (h : LaidOut position found text) {i : Nat} {c : Char}
    (hc : text[i]? = some c)
    (houtside : ∀ token ∈ found, position + i < token.start ∨ token.stop ≤ position + i) :
    isBlank c = true := by
  induction h generalizing i with
  | nil hgap => exact hgap c (List.mem_of_getElem? hc)
  | @cons position gap rest token tokens hgap hne hstart hrest ih =>
    have hstop : token.stop = position + gap.length + token.text.length := by
      rw [Token.stop, hstart]
    rw [List.append_assoc] at hc
    rcases houtside token List.mem_cons_self with hbefore | hbehind
    · rw [List.getElem?_append_left (by omega)] at hc
      exact hgap c (List.mem_of_getElem? hc)
    · rw [List.getElem?_append_right (by omega), List.getElem?_append_right (by omega)] at hc
      refine ih hc fun other hother => ?_
      rw [show token.stop + (i - gap.length - token.text.length) = position + i by omega]
      exact houtside other (List.mem_cons_of_mem _ hother)

end Laid

/-! ## §2 Writing the tokens again -/

/-- Texts of tokens one behind the other, with one space between neighbours and none before a mark
of repetition. -/
def respaced : List Text → Text
  | [] => []
  | [text] => text
  | text :: next :: texts =>
    text ++ ((if next = repeatMarker then [] else [' ']) ++ respaced (next :: texts))

section Respaced

variable {position : Nat} {previous : Option Char} {text : Text} {found : List Token}

/-- A mark of repetition may stand for another one. -/
theorem standsFor_marker (next after : Text) :
    StandsFor (repeatMarker ++ next) (repeatMarker ++ after) where
  endsPlain _ := rfl
  marker front hne hmarker := by
    obtain ⟨rest, heq⟩ := startsWithMarker_iff.mp hmarker
    rcases front with _ | ⟨a, _ | ⟨b, _ | ⟨c, front⟩⟩⟩
    · exact absurd rfl hne
    all_goals simp only [List.cons_append, List.cons.injEq] at heq
    · rw [heq.1]
      rfl
    · rw [heq.1, heq.2.1]
      rfl
    · rw [heq.1, heq.2.1, heq.2.2.1]
      rfl

/-- A mark of repetition stands right at the place where it is found, and not behind a blank. -/
theorem marker_of_tokensFrom {token : Token}
    (h : tokensFrom position previous text = .ok (token :: found))
    (hmarker : token.text = repeatMarker) :
    startsWithMarker text = true ∧ previous.all isBlank = false := by
  fun_induction tokensFrom position previous text with
  | case1 => cases h
  | case2 _ _ _ _ hblank ih =>
    have hnot := (ih h).2
    rw [Option.all_some, hblank] at hnot
    cases hnot
  | case3 => cases h
  | case4 _ _ _ _ _ _ _ htake ih =>
    obtain ⟨tokens, -, heq⟩ := map_eq_ok_iff.mp h
    obtain ⟨rfl, rfl⟩ := List.cons.inj heq
    obtain rfl : _ = repeatMarker := hmarker
    exact marker_of_takeToken htake

/-- What is written behind a token may stand for what it was cut off from. -/
theorem standsFor_respaced {token : Token}
    (h : tokensFrom position previous text = .ok (token :: found)) (texts : List Text) :
    StandsFor ((if token.text = repeatMarker then [] else [' ']) ++
      respaced (token.text :: texts)) text := by
  by_cases hmarker : token.text = repeatMarker
  · obtain ⟨rest, rfl⟩ := startsWithMarker_iff.mp (marker_of_tokensFrom h hmarker).1
    rw [if_pos hmarker, hmarker]
    cases texts with
    | nil => exact standsFor_marker [] rest
    | cons next texts => exact standsFor_marker _ rest
  · rw [if_neg hmarker]
    exact (keepsApart_cons (.inr (by decide)) _).standsFor

/-- A token that is written with something else behind it is the first token there. -/
theorem tokensFrom_of_standsFor {c : Char} {rest token after next : Text} {behind : List Token}
    (hblank : isBlank c = false)
    (htake : takeToken position previous c rest = .ok (token, after)) (hnext : StandsFor next after)
    (hnil : after = [] → next = []) {position' : Nat} {previous' : Option Char}
    (hprevious : token = repeatMarker → previous'.all isBlank = false)
    (hbehind : tokensFrom (position' + token.length) token.getLast? next = .ok behind) :
    tokensFrom position' previous' (token ++ next) = .ok (⟨position', token⟩ :: behind) := by
  obtain ⟨others, htoken, htake'⟩ := takeToken_of_standsFor htake hnext
    (fun hafter => .inl (hnil hafter)) position' hprevious
  have hfound := tokensFrom_token hblank htake'
  rw [hbehind] at hfound
  rwa [← List.cons_append, ← htoken] at hfound

/-- Tokens that are written again are cut into the same texts, wherever they stand; a mark of
repetition has to stand behind something. The induction is along the usage, and each token is
written with what comes behind it. -/
theorem tokensFrom_respaced (h : tokensFrom position previous text = .ok found) (position' : Nat)
    {previous' : Option Char}
    (hprevious : ∀ token ∈ found.head?, token.text = repeatMarker →
      previous'.all isBlank = false) :
    ∃ moved, tokensFrom position' previous' (respaced (found.map Token.text)) = .ok moved ∧
      moved.map Token.text = found.map Token.text := by
  fun_induction tokensFrom position previous text generalizing found position' previous' with
  | case1 =>
    cases h
    exact ⟨[], by rw [List.map_nil, respaced, tokensFrom], rfl⟩
  | case2 _ _ _ _ _ ih => exact ih h position' hprevious
  | case3 => cases h
  | case4 position previous c rest hblank text after htake ih =>
    obtain ⟨tokens, htokens, rfl⟩ := map_eq_ok_iff.mp h
    have hhead : text = repeatMarker → previous'.all isBlank = false := hprevious _ rfl
    have hblank : isBlank c = false := by simpa using hblank
    cases tokens with
    | nil =>
      have hbehind : tokensFrom (position' + text.length) text.getLast? [] = .ok [] := by
        rw [tokensFrom]
      have hfound := tokensFrom_of_standsFor hblank htake keepsApart_nil.standsFor (fun _ => rfl)
        hhead hbehind
      exact ⟨[⟨position', text⟩], by simpa [respaced] using hfound, rfl⟩
    | cons token tokens =>
      have hnext := standsFor_respaced htokens (tokens.map Token.text)
      have hafter : after ≠ [] := by
        rintro rfl
        rw [tokensFrom] at htokens
        cases htokens
      obtain ⟨moved, hmoved, htexts⟩ : ∃ moved,
          tokensFrom (position' + text.length) text.getLast?
            ((if token.text = repeatMarker then [] else [' ']) ++
              respaced ((token :: tokens).map Token.text)) = .ok moved ∧
          moved.map Token.text = (token :: tokens).map Token.text := by
        split
        · refine ih htokens _ ?_
          rintro _ ⟨⟩ hmarker
          exact (marker_of_tokensFrom htokens hmarker).2
        · rename_i hmarker
          rw [List.singleton_append, tokensFrom_blank (by decide)]
          refine ih htokens _ ?_
          rintro _ ⟨⟩ hcontrary
          exact absurd hcontrary hmarker
      exact ⟨⟨position', text⟩ :: moved, tokensFrom_of_standsFor hblank htake hnext
        (fun hnil => absurd hnil hafter) hhead hmoved, by rw [List.map_cons, htexts]; rfl⟩

/-- A tree is built from the texts of the tokens, wherever they stand. -/
theorem parse_congr_of_texts {usage other : Text} {tokens others : List Token}
    (h : Usage.tokens usage = .ok tokens) (hother : Usage.tokens other = .ok others)
    (htexts : others.map Token.text = tokens.map Token.text) {tree : Node} :
    parse other = .ok tree ↔ parse usage = .ok tree := by
  have hsymbols : others.map Token.symbol = tokens.map Token.symbol := by
    have heq := congrArg (List.map fun text => (Token.mk 0 text).symbol) htexts
    rwa [List.map_map, List.map_map] at heq
  rw [parse_eq_ok_iff, parse_eq_ok_iff, h, hother]
  simp [hsymbols]

end Respaced

/-- **Spacing.** The tokens of a usage have spans that are not empty and lie in the usage, in order
and apart from each other, and each has the characters of its span; all other characters are blank.
If the texts of the tokens are written again, with one space between neighbours and none before a
mark of repetition, this is cut into tokens with the same texts, and it compiles to a tree just if
the usage compiles to it. -/
theorem tokens_respaced {usage : Text} {found : List Token} (h : tokens usage = .ok found) :
    (∀ token ∈ found, token.start < token.stop ∧ token.stop ≤ usage.length ∧
      (usage.drop token.start).take (token.stop - token.start) = token.text) ∧
    found.Pairwise (fun token next => token.stop ≤ next.start) ∧
    (∀ i c, usage[i]? = some c → (∀ token ∈ found, i < token.start ∨ token.stop ≤ i) →
      isBlank c = true) ∧
    (∃ moved, tokens (respaced (found.map Token.text)) = .ok moved ∧
      moved.map Token.text = found.map Token.text) ∧
    ∀ committing tree, compile (respaced (found.map Token.text)) committing = .ok tree ↔
      compile usage committing = .ok tree := by
  have hlaid := laidOut_of_tokensFrom h
  -- The first token is no mark of repetition, for it stands behind nothing.
  have hhead : ∀ token ∈ found.head?, token.text = repeatMarker →
      (none : Option Char).all isBlank = false := by
    intro token htoken hmarker
    obtain ⟨tokens, rfl⟩ := List.head?_eq_some_iff.mp htoken
    exact (marker_of_tokensFrom h hmarker).2
  obtain ⟨moved, hmoved, htexts⟩ := tokensFrom_respaced h 0 hhead
  refine ⟨fun token htoken => ?_, hlaid.pairwise, fun i c hc houtside => ?_, ⟨moved, hmoved, htexts⟩,
    fun committing tree => ?_⟩
  · obtain ⟨hlt, -, hstop, htext⟩ := hlaid.spans token htoken
    exact ⟨hlt, by simpa using hstop, htext⟩
  · exact hlaid.isBlank_of_outside hc (by simpa using houtside)
  · unfold compile
    simp only [map_eq_ok_iff, parse_congr_of_texts h hmoved htexts]

/-- Marks of repetition in a row, an escaped blank at the end of a word, a parameter with blanks in
its name, dots behind a mark, and a backslash at the end. -/
theorem tokens_respaced_dots :
    let usage := "  [a\\ |< b >.......]--k[=v]\\t\\\\  z\\".toList
    ∃ found, tokens usage = .ok found ∧
      respaced (found.map Token.text) =
        "[ a\\  | < b >...... . ] --k [ = v ] \\t\\\\ z\\".toList ∧
      (∃ moved, tokens (respaced (found.map Token.text)) = .ok moved ∧
        moved.map Token.text = found.map Token.text) ∧
      ∀ tree, compile usage true = .ok tree →
        compile (respaced (found.map Token.text)) true = .ok tree := by
  intro usage
  have hfound : tokens usage = .ok
      [⟨2, "[".toList⟩, ⟨3, "a\\ ".toList⟩, ⟨6, "|".toList⟩, ⟨7, "< b >".toList⟩,
        ⟨12, "...".toList⟩, ⟨15, "...".toList⟩, ⟨18, ".".toList⟩, ⟨19, "]".toList⟩,
        ⟨20, "--k".toList⟩, ⟨23, "[".toList⟩, ⟨24, "=".toList⟩, ⟨25, "v".toList⟩, ⟨26, "]".toList⟩,
        ⟨27, "\\t\\\\".toList⟩, ⟨33, "z\\".toList⟩] :=
    Match.eq_ok_of_toOption (by decide +kernel)
  obtain ⟨-, -, -, hmoved, hcompile⟩ := tokens_respaced hfound
  exact ⟨_, hfound, by decide, hmoved, fun tree => (hcompile true tree).mpr⟩

end Usage

end Synopsis
