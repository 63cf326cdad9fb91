/-
Synopsis.Proofs.Match.Idling — occurrences that take nothing.

A slot may be refused where another one is there without taking a word or recording
anything. If both are optional, the slots do the same but for the number of their
occurrences (`Slot.resembles_of_idles`), and that number is only used for the limits of a
repetition. The repetition with one occurrence less ends at the same word then, so a
sequence and a choice find the same with either slot (`descend_congr_of_resembles`,
`firstOf_congr_of_resembles`).
-/
import Synopsis.Proofs.Match.Alternatives

namespace Synopsis

namespace Match

/-! ## §1 Slots that resemble each other -/

def uncounted : Progress × Memory → Progress × Memory
  | (.reached next _, memory) => (.reached next 0, memory)
  | found => found

/-- The slots find the same in the same words, and both or neither of them may be left out. The
other slot may count one occurrence more, if without it the other slot finds the same as well. -/
structure Slot.Resembles (total : Nat) (slot other : Slot) : Prop where
  omissible?_eq : slot.omissible? = other.omissible?
  uncounted_eq (token : Nat) (last : Bool) (limit : Option Nat) (memory : Memory) :
    uncounted (slot.process total token last limit memory) =
      uncounted (other.process total token last limit memory)
  count_eq (token : Nat) (last : Bool) (memory : Memory) :
    (slot.process total token last none memory).1.count =
      (other.process total token last none memory).1.count ∨
    ∃ count, (slot.process total token last none memory).1.count = count ∧
      (other.process total token last none memory).1.count = count + 1 ∧
      (0 < count → uncounted (other.process total token last (some count) memory) =
        uncounted (other.process total token last none memory))

theorem Slot.Alike.resembles {total : Nat} {slot other : Slot} (h : slot.Alike total other) :
    slot.Resembles total other :=
  ⟨h.omissible?_eq, fun _ _ _ _ => by rw [h.process_eq], fun _ _ _ => .inl (by rw [h.process_eq])⟩

theorem Slot.resembles_of_eq {total : Nat} {slot other : Slot} (h : slot = other) :
    slot.Resembles total other :=
  (Slot.alike_of_eq h).resembles

/-! ## §2 Groups of slots -/

theorem behind_uncounted (memory : Memory) (go : Nat → Memory → Attempt × Memory)
    (found : Progress × Memory) : behind memory go (uncounted found) = behind memory go found := by
  obtain ⟨progress, after⟩ := found
  cases progress <;> rfl

/-- Trying the first once more before the others changes nothing. -/
theorem orTry_again (first second third : Attempt × Memory) :
    orTry first (orTry (orTry first second) third) = orTry first (orTry second third) := by
  by_cases h : first.1 = .refused
  · simp only [orTry_of_eq h]
  · simp only [orTry_of_ne h]

section Groups

variable {α : Type} {items : List α} {slot other : α → Slot} {total : Nat}

/-- In a sequence slots may stand for others that they resemble. If one of them has an occurrence
less than the other, the other one's first reduction finds what was found before. -/
theorem descend_congr_of_resembles
    (h : ∀ item ∈ items, (slot item).Resembles total (other item)) (last : Bool) :
    descend total last (items.map slot) = descend total last (items.map other) := by
  induction items with
  | nil => rfl
  | cons item items ih =>
    obtain ⟨homissible, huncounted, hcount⟩ := h item (by simp)
    have ih := ih fun item hmem => h item (by simp [hmem])
    funext token memory
    simp only [List.map_cons, descend, homissible, ih, List.isEmpty_map]
    cases (other item).omissible? with
    | none => rfl
    | some leave =>
      let go := descend total last (items.map other)
      let isLast := last && items.isEmpty
      let found (limit : Option Nat) := (other item).process total token isLast limit memory
      have hbehind (limit : Option Nat) :
          behind memory go ((slot item).process total token isLast limit memory) =
            behind memory go (found limit) := by
        rw [← behind_uncounted, huncounted, behind_uncounted]
      simp only [hbehind, go, isLast, found]
      rcases hcount token isLast memory with hsame | ⟨count, hslot, hother, hless⟩
      · rw [hsame]
      · rw [hslot, hother, Nat.add_sub_cancel]
        cases count with
        | zero => rfl
        | succ count =>
          have hfirst :
              behind memory go (found (some (count + 1))) = behind memory go (found none) := by
            rw [← behind_uncounted, hless (Nat.succ_pos _), behind_uncounted]
          rw [fewer, hfirst, orTry_again]
          rfl

/-- In a choice slots may stand for others that they resemble. -/
theorem firstOf_congr_of_resembles
    (h : ∀ item ∈ items, (slot item).Resembles total (other item)) (token : Nat) (last : Bool)
    (memory : Memory) :
    firstOf total token last memory (items.map slot) =
      firstOf total token last memory (items.map other) := by
  induction items generalizing memory with
  | nil => rfl
  | cons item items ih =>
    have huncounted := (h item (by simp)).uncounted_eq token last none memory
    have ih := ih fun item hmem => h item (by simp [hmem])
    rw [List.map_cons, List.map_cons, firstOf, firstOf]
    generalize (slot item).process total token last none memory = found at huncounted
    generalize (other item).process total token last none memory = found' at huncounted
    obtain ⟨progress, after⟩ := found
    obtain ⟨progress', after'⟩ := found'
    cases progress <;> cases progress' <;> cases huncounted
    · exact ih _
    · rfl
    · rfl

end Groups

/-! ## §3 Idle occurrences -/

/-- The results are the same, or the one is a refusal where the other takes nothing. -/
def SameOrIdle (token : Nat) (memory : Memory) (found other : Attempt × Memory) : Prop :=
  found = other ∨ found = (.refused, memory) ∧ other = (.upTo token, memory)

/-- Matching once is the same with both, or the one is refused where the other takes nothing. -/
def Matcher.Idles (matcher other : Matcher) : Prop :=
  ∀ token last memory,
    SameOrIdle token memory (matcher.attempt token last memory) (other.attempt token last memory)

namespace Slot

variable {slot other : Slot} {total token : Nat} {last : Bool} {memory : Memory}

theorem once_of_idles (h : slot.toMatcher.Idles other.toMatcher) (token : Nat) (last : Bool)
    (memory : Memory) :
    slot.once token last memory = other.once token last memory ∨
      slot.once token last memory = (.reached token 0, memory) ∧
        other.once token last memory = (.reached token 1, memory) := by
  rcases h token last memory with heq | ⟨hslot, hother⟩
  · exact .inl (by rw [once, once, heq])
  · exact .inr ⟨by rw [once, hslot], by rw [once, hother]⟩

/-- A repetition of the other slot may have one occurrence more, which takes nothing, and is the
same without it. -/
theorem repeated_of_idles (h : slot.toMatcher.Idles other.toMatcher) (rounds token : Nat)
    (memory : Memory) :
    slot.repeated rounds token memory = other.repeated rounds token memory ∨
      ∃ next count after, slot.repeated rounds token memory = (.reached next count, after) ∧
        other.repeated rounds token memory = (.reached next (count + 1), after) ∧
        other.repeated count token memory = (.reached next count, after) := by
  induction rounds generalizing token memory with
  | zero => exact .inl rfl
  | succ rounds ih =>
    rcases h token false memory with heq | ⟨hslot, hother⟩
    · rw [repeated, repeated, heq]
      cases hattempt : other.attempt token false memory with
      | mk attempt middle =>
        cases attempt with
        | upTo next =>
          by_cases hnext : next = token
          · exact .inl (by simp [hnext])
          · rcases ih next middle with hrest | ⟨next', count, after, hslot, hother, hless⟩
            · exact .inl (by simp only [if_neg hnext, hrest])
            · refine .inr ⟨next', count + 1, after, ?_, ?_, ?_⟩
              · simp [if_neg hnext, hslot, Progress.another]
              · simp [if_neg hnext, hother, Progress.another]
              · rw [repeated, hattempt]
                simp [if_neg hnext, hless, Progress.another]
        | refused => exact .inl rfl
        | barred => exact .inl rfl
        | fault fault => exact .inl rfl
    · refine .inr ⟨token, 0, memory, ?_, ?_, rfl⟩
      · rw [repeated, hslot]
      · rw [repeated, hother]
        simp

/-- Settling the same number of occurrences and one more has the same end, if none is enough. -/
theorem settle_of_more (h : slot.occ.optional = true) (hocc : slot.occ = other.occ)
    (total next count : Nat) (last : Bool) :
    slot.settle total last (.reached next count) = .failed ∧
        other.settle total last (.reached next (count + 1)) = .failed ∨
      slot.settle total last (.reached next count) = .reached next count ∧
        ∀ count, other.settle total last (.reached next count) = .reached next count := by
  rw [settle_of_optional h, settle_of_optional (hocc ▸ h)]
  by_cases hover : last ∧ next < total
  · exact .inl ⟨if_pos hover, if_pos hover⟩
  · exact .inr ⟨if_neg hover, fun count => by rw [settle_of_optional (hocc ▸ h), if_neg hover]⟩

/-- What settles to the same is the same. -/
theorem settle_congr (hocc : slot.occ = other.occ) (total : Nat) (last : Bool)
    (progress : Progress) : slot.settle total last progress = other.settle total last progress := by
  cases progress <;> simp [settle, hocc]

/-- A slot that is matched with its marks is matched as the other one is, but that this one may
have an occurrence more, without which it finds the same. -/
theorem process_of_idles (h : slot.toMatcher.Idles other.toMatcher)
    (hoptional : slot.occ.optional = true) (hocc : slot.occ = other.occ)
    (hpositional : slot.positional? = other.positional?) (total token : Nat) (last : Bool)
    (limit : Option Nat) (memory : Memory) :
    slot.process total token last limit memory = other.process total token last limit memory ∨
      ∃ next count after,
        slot.process total token last limit memory = (.reached next count, after) ∧
        other.process total token last limit memory = (.reached next (count + 1), after) ∧
        (0 < count → other.process total token last (some count) memory =
          (.reached next count, after)) := by
  by_cases hrepeats : slot.occ.repeating = true ∧ slot.positional? ≠ some false
  · obtain ⟨hrepeating, hne⟩ := hrepeats
    cases hposition : slot.positional? with
    | none => exact .inl (by simp [process, hrepeating, hposition, ← hocc, ← hpositional, settle])
    | some positional =>
      obtain rfl : positional = true := by
        cases positional with
        | false => exact absurd hposition hne
        | true => rfl
      have hprocess := other.process_repeating (hocc ▸ hrepeating) (hpositional ▸ hposition) total
        token last
      rw [process_repeating hrepeating hposition, hprocess]
      rcases repeated_of_idles h (rounds total token limit) token memory with
        heq | ⟨next, count, after, hslot, hother, hless⟩
      · exact .inl (by rw [heq, settle_congr hocc])
      · rw [hslot, hother]
        rcases settle_of_more hoptional hocc total next count last with
          ⟨hfails, hfails'⟩ | ⟨hkeeps, hkeeps'⟩
        · exact .inl (by rw [hfails, hfails'])
        · refine .inr ⟨next, count, after, by rw [hkeeps], by rw [hkeeps'], ?_⟩
          intro _
          have hle := count_le_of_repeated hother
          have hrounds : rounds total token (some count) = count := by
            cases limit <;> simp only [rounds] at hle ⊢ <;> omega
          rw [hprocess, hrounds, hless, hkeeps']
  · have hslot : slot.occ.repeating = true → slot.positional? = some false :=
      fun hrepeating => by_contra fun hne => hrepeats ⟨hrepeating, hne⟩
    rw [process_once hslot, process_once (by rwa [← hocc, ← hpositional])]
    rcases once_of_idles h token last memory with heq | ⟨hslot, hother⟩
    · exact .inl (by rw [heq, settle_congr hocc])
    · rw [hslot, hother]
      rcases settle_of_more hoptional hocc total token 0 last with
        ⟨hfails, hfails'⟩ | ⟨hkeeps, hkeeps'⟩
      · exact .inl (by rw [hfails, hfails'])
      · refine .inr ⟨token, 0, memory, by rw [hkeeps], by rw [hkeeps'], ?_⟩
        intro h
        exact absurd h (lt_irrefl 0)

/-- Optional slots of which one is refused where the other takes nothing resemble each other. -/
theorem resembles_of_idles (h : slot.toMatcher.Idles other.toMatcher)
    (hoptional : slot.occ.optional = true) (hocc : slot.occ = other.occ)
    (hpositional : slot.positional? = other.positional?) (total : Nat) :
    slot.Resembles total other where
  omissible?_eq := by rw [omissible?, omissible?, hocc, hpositional]
  uncounted_eq token last limit memory := by
    rcases process_of_idles h hoptional hocc hpositional total token last limit memory with
      heq | ⟨next, count, after, hslot, hother, -⟩
    · rw [heq]
    · rw [hslot, hother]
      rfl
  count_eq token last memory := by
    rcases process_of_idles h hoptional hocc hpositional total token last none memory with
      heq | ⟨next, count, after, hslot, hother, hless⟩
    · exact .inl (by rw [heq])
    · refine .inr ⟨count, by rw [hslot]; rfl, by rw [hother]; rfl, ?_⟩
      intro hpos
      rw [hless hpos, hother]
      rfl

end Slot

end Match

end Synopsis
