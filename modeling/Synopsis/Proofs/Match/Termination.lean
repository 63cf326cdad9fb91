/-
Synopsis.Proofs.Match.Termination — the loops of the matcher come to an end.

There are two loops. A sequence goes on by one slot or back by one decision until there is
nothing left to try; `load` bounds its steps (`halts_run`). A repetition goes on as long as
its limit allows and the element is there, and nothing but an occurrence that takes no word
ends it otherwise (`Repeats`). Each occurrence that lets it go on takes a word of the line
(`advances_slotOf`), so there are no more rounds than words and one, and the loop without a
bound ends as the one that counts its rounds (`repeats_repeated`).

With that a usage that compiles comes to an end on every line: bindings, none, or what is
wrong with the line at a character of it (`parse_ends`).
-/
import Synopsis.Proofs.Line.Places
import Synopsis.Proofs.Match.Totality

namespace Synopsis

namespace Match

open Line (Parsed)

/-! ## §1 Sequences -/

namespace Search

section Steps

variable {slots : List Slot} {total : Nat} {last : Bool} {beginning : Memory}

/-- The search stops after so many steps, and this is what it comes to. -/
inductive Halts (slots : List Slot) (total : Nat) (last : Bool) (beginning : Memory) :
    Nat → Search → Attempt × Memory → Prop where
  | stop {search : Search} {attempt : Attempt} {memory : Memory}
    (hstep : step slots total last beginning search = .stop attempt memory) :
    Halts slots total last beginning 1 search (attempt, memory)
  | next {n : Nat} {search after : Search} {result : Attempt × Memory}
    (hstep : step slots total last beginning search = .next after)
    (hafter : Halts slots total last beginning n after result) :
    Halts slots total last beginning (n + 1) search result

/-- What is still to be tried bounds the steps of a search. The induction is on the run. -/
theorem halts_run (search : Search) : ∃ n ≤ search.load total slots.length + 1,
    Halts slots total last beginning n search (run slots total last beginning search) := by
  induction search using run.induct slots total last beginning with
  | case1 search attempt memory hstep =>
    rw [run_eq_follow, hstep]
    exact ⟨1, by omega, .stop hstep⟩
  | case2 search after hstep ih =>
    have hless := load_lt_of_step hstep
    obtain ⟨n, hn, hhalts⟩ := ih
    rw [run_eq_follow, hstep]
    exact ⟨n + 1, by omega, .next hstep hhalts⟩

end Steps

end Search

/-! ## §2 Repetitions -/

def Progress.more (n : Nat) : Progress → Progress
  | .reached token count => .reached token (n + count)
  | progress => progress

theorem Progress.more_another (n : Nat) (progress : Progress) :
    progress.another.more n = progress.more (n + 1) := by
  cases progress with
  | reached token count => simp only [another, more, Nat.add_assoc, Nat.add_comm 1]
  | failed => rfl
  | fault fault => rfl

namespace Slot

/-- The rounds of a repetition without a bound on them. The slot has occurred `count` times before
the word `token`; the repetition goes on while the limit, if there is one, is greater than that. -/
inductive Repeats (slot : Slot) (limit : Option Nat) :
    Nat → Nat → Memory → Progress × Memory → Prop where
  | limited {count token k : Nat} {memory : Memory} (hlimit : limit = some k) (hcount : k ≤ count) :
    Repeats slot limit count token memory (.reached token count, memory)
  | refused {count token : Nat} {memory after : Memory} (hgoes : ∀ k ∈ limit, count < k)
    (hattempt : slot.attempt token false memory = (.refused, after)) :
    Repeats slot limit count token memory (.reached token count, after)
  | barred {count token : Nat} {memory after : Memory} (hgoes : ∀ k ∈ limit, count < k)
    (hattempt : slot.attempt token false memory = (.barred, after)) :
    Repeats slot limit count token memory (.reached token count, after)
  | idle {count token : Nat} {memory after : Memory} (hgoes : ∀ k ∈ limit, count < k)
    (hattempt : slot.attempt token false memory = (.upTo token, after)) :
    Repeats slot limit count token memory (.reached token (count + 1), after)
  | again {count token next : Nat} {memory after : Memory} {result : Progress × Memory}
    (hgoes : ∀ k ∈ limit, count < k)
    (hattempt : slot.attempt token false memory = (.upTo next, after)) (hnext : next ≠ token)
    (hrest : Repeats slot limit (count + 1) next after result) :
    Repeats slot limit count token memory result
  | fault {count token : Nat} {memory after : Memory} {fault : Fault}
    (hgoes : ∀ k ∈ limit, count < k)
    (hattempt : slot.attempt token false memory = (.fault fault, after)) :
    Repeats slot limit count token memory (.fault fault, after)

/-- An occurrence of the slot takes no word, or it takes words that are there. -/
def Advances (slot : Slot) (total : Nat) : Prop :=
  ∀ {token next : Nat} {memory after : Memory},
    slot.attempt token false memory = (.upTo next, after) →
      next = token ∨ (token < next ∧ next ≤ total)

/-- So many rounds are what is left of the limit, or they are not more than that and enough for
the words that are left. -/
def Suffices (total : Nat) (limit : Option Nat) (rounds count token : Nat) : Prop :=
  match limit with
  | none => total - token + 1 ≤ rounds
  | some k => rounds ≤ k - count ∧ (k - count ≤ rounds ∨ total - token + 1 ≤ rounds)

theorem suffices_rounds (total token : Nat) (limit : Option Nat) :
    Suffices total limit (rounds total token limit) 0 token := by
  cases limit with
  | none => exact Nat.le_refl _
  | some k =>
    simp only [Suffices, rounds]
    omega

section Rounds

variable {total rounds count token next : Nat} {limit : Option Nat}

/-- No rounds suffice just where the limit is reached. -/
theorem Suffices.exists_limit (h : Suffices total limit 0 count token) :
    ∃ k, limit = some k ∧ k ≤ count := by
  cases limit with
  | none => cases h
  | some k =>
    simp only [Suffices] at h
    exact ⟨k, rfl, by omega⟩

/-- If there is a round left, the limit is not reached. -/
theorem Suffices.goes (h : Suffices total limit (rounds + 1) count token) :
    ∀ k ∈ limit, count < k := by
  rintro k rfl
  simp only [Suffices] at h
  omega

/-- A round less suffices behind an occurrence that takes a word. -/
theorem Suffices.rest (h : Suffices total limit (rounds + 1) count token) (hlt : token < next)
    (hle : next ≤ total) : Suffices total limit rounds (count + 1) next := by
  cases limit with
  | none =>
    simp only [Suffices] at h ⊢
    omega
  | some k =>
    simp only [Suffices] at h ⊢
    omega

end Rounds

/-- The repetition without a bound comes to what the one with enough rounds comes to. The
induction is on the rounds. -/
theorem repeats_of_suffices {slot : Slot} {total : Nat} (h : slot.Advances total)
    {limit : Option Nat} {rounds count token : Nat} (memory : Memory)
    (hrounds : Suffices total limit rounds count token) :
    Repeats slot limit count token memory
      (((slot.repeated rounds token memory).1).more count,
        (slot.repeated rounds token memory).2) := by
  induction rounds generalizing count token memory with
  | zero =>
    obtain ⟨k, hlimit, hle⟩ := hrounds.exists_limit
    exact .limited hlimit hle
  | succ rounds ih =>
    have hgoes := hrounds.goes
    cases hattempt : slot.attempt token false memory with
    | mk attempt after =>
      cases attempt with
      | refused =>
        simp only [repeated, hattempt]
        exact .refused hgoes hattempt
      | barred =>
        simp only [repeated, hattempt]
        exact .barred hgoes hattempt
      | fault fault =>
        simp only [repeated, hattempt]
        exact .fault hgoes hattempt
      | upTo next =>
        by_cases hnext : next = token
        · subst hnext
          simp only [repeated, hattempt, if_true]
          exact .idle hgoes hattempt
        · obtain ⟨hlt, hle⟩ := (h hattempt).resolve_left hnext
          simp only [repeated, hattempt, hnext, if_false, Progress.more_another]
          exact .again hgoes hattempt hnext (ih after (hrounds.rest hlt hle))

/-- A repetition comes to one result. The induction is on its rounds. -/
theorem Repeats.unique {slot : Slot} {limit : Option Nat} {count token : Nat} {memory : Memory}
    {result result' : Progress × Memory} (h : Repeats slot limit count token memory result)
    (h' : Repeats slot limit count token memory result') : result' = result := by
  induction h with
  | limited hlimit hcount =>
    have hmem : _ ∈ limit := hlimit
    cases h' <;> grind
  | again hgoes hattempt hnext _ ih =>
    cases h' with
    | limited hlimit hcount => exact absurd (hgoes _ hlimit) (Nat.not_lt.mpr hcount)
    | _ => grind
  | _ hgoes hattempt =>
    cases h' with
    | limited hlimit hcount => exact absurd (hgoes _ hlimit) (Nat.not_lt.mpr hcount)
    | _ => grind

/-- A repetition from the first round on comes to what the one comes to that counts its rounds. -/
theorem repeats_repeated {slot : Slot} {total : Nat} (h : slot.Advances total)
    (limit : Option Nat) (token : Nat) (memory : Memory) :
    Repeats slot limit 0 token memory
      (slot.repeated (rounds total token limit) token memory) := by
  have hrepeats := repeats_of_suffices h memory (suffices_rounds total token limit)
  have hmore (progress : Progress) : progress.more 0 = progress := by
    cases progress <;> simp [Progress.more]
  rwa [hmore] at hrepeats

end Slot

/-- A node that matches without taking all words takes none, or words of the line. -/
theorem advances_slotOf (line : Parsed) (node : Node) :
    (slotOf line node).Advances line.words.length := by
  intro token next memory after hattempt
  obtain ⟨readings, keys, -, hnext, hspells, -⟩ := occurs_of_attempt line node hattempt
  cases readings with
  | nil => exact .inl hnext
  | cons reading readings =>
    have hwords := hspells
    obtain ⟨⟨word, hword, -⟩, -⟩ := hspells
    have htoken : token < line.words.length := (List.getElem?_eq_some_iff.mp hword).1
    have hle := le_length_of_spells hwords htoken.le
    rw [List.length_cons] at hnext
    exact .inr ⟨by omega, hnext ▸ hle⟩

/-! ## §3 Lines -/

/-- A line that is malformed cannot be read. -/
theorem malformed_of_parse {tree : Node} {source : Text} {error : LineError}
    (h : parse tree source = .error (.malformed error)) :
    Line.read (.whole source) = .error (.malformed error) := by
  unfold parse parseWindow at h
  split at h
  · rename_i hread
    cases h
    exact hread
  · split at h <;> cases h

/-- **Matching is total.** A usage that compiles comes to an end on every line: there are no
bindings, or there are some, or the line is malformed at a character of it, which is the quote or
the hyphens that are said to be wrong. No fault is possible. For every tree and all words the search
in a sequence stops after so many steps, from whatever point it goes on, and a repetition comes to
an end, also one that takes no words. -/
theorem parse_ends {usage : Text} {committing : Bool} {tree : Node}
    (h : Usage.compile usage committing = .ok tree) :
    (∀ source, parse tree source = .ok none ∨
      (∃ bindings, parse tree source = .ok (some bindings)) ∨
      ∃ error, parse tree source = .error (.malformed error) ∧ 0 ≤ error.position ∧
        error.position < source.length ∧ error.LiesIn source) ∧
    (∀ (line : Parsed) (children : List Node) (last : Bool) (beginning : Memory) (search : Search),
      ∃ n ≤ search.load line.words.length (slots line children).length + 1,
        Search.Halts (slots line children) line.words.length last beginning n search
          (Search.run (slots line children) line.words.length last beginning search)) ∧
    ∀ (line : Parsed) (node : Node) (limit : Option Nat) (token : Nat) (memory : Memory),
      (slotOf line node).Repeats limit 0 token memory
        ((slotOf line node).repeated (Slot.rounds line.words.length token limit) token memory) := by
  refine ⟨fun source => ?_, fun line children last beginning search => Search.halts_run search,
    fun line node limit token memory =>
      Slot.repeats_repeated (advances_slotOf line node) limit token memory⟩
  rcases cases_of_parse_whole (Usage.isComplete_of_compile h) source with ⟨error, herror⟩ |
    ⟨found, hfound⟩
  · have hread : Line.read (.whole source) = .error (.malformed error) := malformed_of_parse herror
    have hlies := Line.liesIn_of_read hread
    exact .inr (.inr ⟨error, herror, hlies.position_lt.1, hlies.position_lt.2, hlies⟩)
  · cases found with
    | none => exact .inl hfound
    | some bindings => exact .inr (.inl ⟨bindings, hfound⟩)

/-- A repetition of an element that may be absent, and a quote that is not closed. -/
theorem parse_ends_unclosed_quote :
    ∃ tree, Usage.compile "([a])... b".toList false = .ok tree ∧
      ∃ error, parse tree "a \"b".toList = .error (.malformed error) ∧
        error.LiesIn "a \"b".toList := by
  have hsome : (Usage.compile "([a])... b".toList false).toOption.isSome = true := by
    decide +kernel
  obtain ⟨tree, htree⟩ := Option.isSome_iff_exists.mp hsome
  have hcompile := eq_ok_of_toOption htree
  have hread : (Line.read (.whole "a \"b".toList)).toOption.isNone = true := by
    decide +kernel
  refine ⟨tree, hcompile, ?_⟩
  have hnone : ∀ found, parse tree "a \"b".toList ≠ .ok found := by
    intro found hfound
    unfold parse parseWindow at hfound
    split at hfound
    · cases hfound
    · rename_i hline
      rw [hline] at hread
      cases hread
  rcases (parse_ends hcompile).1 "a \"b".toList with hfound | ⟨bindings, hfound⟩ |
    ⟨error, herror, -, -, hlies⟩
  · exact absurd hfound (hnone _)
  · exact absurd hfound (hnone _)
  · exact ⟨error, herror, hlies⟩

end Match

end Synopsis
