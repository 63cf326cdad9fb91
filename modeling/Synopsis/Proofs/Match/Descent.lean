/-
Synopsis.Proofs.Match.Descent — matching a sequence by plain recursion.

`descend` tries the first slot as often as it can occur, then with fewer and fewer
occurrences, then without it if it may be left out, and takes the first of these
behind which the other slots match. It has no stack, and no limits to keep in step
with it. That the search in a sequence finds the same is the subject of
`Synopsis.Proofs.Match.Backtracking`.
-/
import Synopsis.Proofs.Match.Conduct

namespace Synopsis

namespace Match

/-! ## §1 Matching a sequence by recursion -/

def orTry (first second : Attempt × Memory) : Attempt × Memory :=
  match first.1 with
  | .refused => second
  | _ => first

/-- Going on behind a slot that was matched. If it was not, nothing is remembered of it. -/
def behind (memory : Memory) (go : Nat → Memory → Attempt × Memory) :
    Progress × Memory → Attempt × Memory
  | (.reached next _, after) => go next after
  | (.failed, _) => (.refused, memory)
  | (.fault fault, after) => (.fault fault, after)

/-- The first of the numbers of occurrences, counted down to one, with which something matches. -/
def fewer (memory : Memory) (with? : Nat → Attempt × Memory) : Nat → Attempt × Memory
  | 0 => (.refused, memory)
  | limit + 1 => orTry (with? (limit + 1)) (fewer memory with? limit)

def Progress.count : Progress → Nat
  | .reached _ count => count
  | _ => 0

def Slot.omissible? (slot : Slot) : Option Bool :=
  if slot.occ.optional then slot.positional? else some false

/-- The slots from the given word on, one after the other. -/
def descend (total : Nat) (last : Bool) : List Slot → Nat → Memory → Attempt × Memory
  | [], token, memory => (.upTo token, memory)
  | slot :: slots, token, memory =>
    match slot.omissible? with
    | none => (.fault .undetermined, memory)
    | some leave =>
      let go := descend total last slots
      let found (limit : Option Nat) : Progress × Memory :=
        slot.process total token (last && slots.isEmpty) limit memory
      orTry (behind memory go (found none))
        (orTry (fewer memory (fun limit => behind memory go (found (some limit)))
            ((found none).1.count - 1))
          (if leave then go token memory else (.refused, memory)))

/-! ## §2 The recursion and what is remembered -/

theorem orTry_of_ne {first : Attempt × Memory} (h : first.1 ≠ .refused)
    (second : Attempt × Memory) :
    orTry first second = first := by
  unfold orTry
  split
  · contradiction
  · rfl

theorem orTry_of_eq {first : Attempt × Memory} (h : first.1 = .refused)
    (second : Attempt × Memory) :
    orTry first second = second := by
  unfold orTry
  rw [h]

/-- What holds of both results holds of the one that is taken. -/
theorem orTry_cases {first second : Attempt × Memory} {P : Attempt × Memory → Prop} (h : P first)
    (h' : P second) : P (orTry first second) := by
  unfold orTry
  split
  · exact h'
  · exact h

theorem onStack_orTry (stack : List Retry) (first second : Attempt × Memory) :
    onStack stack (orTry first second) = orTry (onStack stack first) (onStack stack second) := by
  obtain ⟨attempt, memory⟩ := first
  cases attempt <;> rfl

theorem fewer_cases {memory : Memory} {with? : Nat → Attempt × Memory}
    {P : Attempt × Memory → Prop} (h0 : P (.refused, memory)) (h : ∀ limit, P (with? limit))
    (limit : Nat) : P (fewer memory with? limit) := by
  induction limit with
  | zero => exact h0
  | succ limit ih => exact orTry_cases (h _) ih

theorem onStack_fewer (stack : List Retry) (memory : Memory) (with? : Nat → Attempt × Memory)
    (limit : Nat) :
    onStack stack (fewer memory with? limit) =
      fewer (memory.withStack stack) (fun limit => onStack stack (with? limit)) limit := by
  induction limit with
  | zero => rfl
  | succ limit ih => rw [fewer, onStack_orTry, ih, fewer]

/-- A property of the results of `descend` that holds of its last resorts and of all that comes
after a slot holds of the results. -/
theorem descend_cons_cases {slot : Slot} {slots : List Slot} {total token : Nat} {last : Bool}
    {memory : Memory} {P : Attempt × Memory → Prop} (hfault : ∀ fault, P (.fault fault, memory))
    (hrefused : P (.refused, memory))
    (hbehind : ∀ isLast limit,
      P (behind memory (descend total last slots) (slot.process total token isLast limit memory)))
    (hwithout : slot.omissible? = some true → P (descend total last slots token memory)) :
    P (descend total last (slot :: slots) token memory) := by
  unfold descend
  split
  · exact hfault _
  · rename_i leave hleave
    have hfewer := fewer_cases hrefused fun limit => hbehind (last && slots.isEmpty) (some limit)
    refine orTry_cases (hbehind _ _) (orTry_cases (hfewer _) ?_)
    split
    · rename_i htrue
      exact hwithout (htrue ▸ hleave)
    · exact hrefused

/-- Slots that match do so behind the first one, or without it if it may be left out. -/
theorem cases_of_descend_cons {slot : Slot} {slots : List Slot} {total token next : Nat}
    {last : Bool} {memory after : Memory} :
    descend total last (slot :: slots) token memory = (.upTo next, after) →
      (∃ isLast limit middle count found,
        slot.process total token isLast limit memory = (.reached middle count, found) ∧
          descend total last slots middle found = (.upTo next, after)) ∨
      (slot.omissible? = some true ∧
        descend total last slots token memory = (.upTo next, after)) := by
  apply descend_cons_cases (P := fun result => result = (.upTo next, after) → _ ∨ _)
  · intro fault h
    cases h
  · intro h
    cases h
  · intro isLast limit h
    generalize hfound : slot.process total token isLast limit memory = found at h
    obtain ⟨progress, memory'⟩ := found
    cases progress with
    | failed => cases h
    | fault fault => cases h
    | reached middle count => exact .inl ⟨isLast, limit, middle, count, memory', hfound, h⟩
  · intro homissible h
    exact .inr ⟨homissible, h⟩

/-- The recursion only adds to the trail. -/
theorem trail_extends_descend {slots : List Slot} (h : ∀ slot ∈ slots, slot.Lawful) (total : Nat)
    (last : Bool) (token : Nat) (memory : Memory) :
    (descend total last slots token memory).2.trail.Extends memory.trail := by
  induction slots generalizing token memory with
  | nil => exact .refl _
  | cons slot slots ih =>
    have ih := ih fun s hs => h s (by simp [hs])
    apply descend_cons_cases (P := fun result => result.2.trail.Extends memory.trail)
    · exact fun _ => .refl _
    · exact .refl _
    · intro isLast limit
      have hextends :=
        Slot.trail_extends_process (h slot (by simp)) total token isLast limit memory
      generalize slot.process total token isLast limit memory = found at hextends
      obtain ⟨progress, after⟩ := found
      cases progress with
      | failed => exact .refl _
      | reached next count => exact (ih next after).trans hextends
      | fault fault => exact hextends
    · exact fun _ => ih token memory

/-- The recursion never ends in a bar, which is the failure of a flag alone. -/
theorem descend_ne_barred (slots : List Slot) (total : Nat) (last : Bool) (token : Nat)
    (memory : Memory) : (descend total last slots token memory).1 ≠ .barred := by
  induction slots generalizing token memory with
  | nil => simp [descend]
  | cons slot slots ih =>
    apply descend_cons_cases (P := fun result => result.1 ≠ .barred)
    · simp
    · simp
    · intro isLast limit
      generalize slot.process total token isLast limit memory = found
      obtain ⟨progress, after⟩ := found
      cases progress with
      | failed => simp [behind]
      | reached next count => exact ih next after
      | fault fault => simp [behind]
    · exact fun _ => ih token memory

theorem eq_of_orTry_refused {first second : Attempt × Memory}
    (h : (orTry first second).1 = .refused) : orTry first second = second := by
  by_cases hfirst : first.1 = .refused
  · exact orTry_of_eq hfirst second
  · rw [orTry_of_ne hfirst] at h
    contradiction

/-- If the slots do not match, the recursion remembers what was remembered before. -/
theorem descend_refused {slots : List Slot} {total : Nat} {last : Bool} {token : Nat}
    {memory : Memory} (h : (descend total last slots token memory).1 = .refused) :
    (descend total last slots token memory).2 = memory := by
  induction slots generalizing token memory with
  | nil => simp [descend] at h
  | cons slot slots ih =>
    unfold descend at h ⊢
    split at h
    · simp at h
    · simp only at h ⊢
      have hrest := eq_of_orTry_refused h
      rw [hrest] at h ⊢
      have hwithout := eq_of_orTry_refused h
      rw [hwithout] at h ⊢
      split at h
      · rename_i hleave
        rw [if_pos hleave]
        exact ih h
      · rename_i hleave
        rw [if_neg hleave]

/-- The recursion does the same whatever stands on the stack. -/
theorem descend_withStack {slots : List Slot} (h : ∀ slot ∈ slots, slot.Lawful) (total : Nat)
    (last : Bool) (token : Nat) (memory : Memory) (stack : List Retry) :
    descend total last slots token (memory.withStack stack) =
      onStack stack (descend total last slots token memory) := by
  induction slots generalizing token memory with
  | nil => rfl
  | cons slot slots ih =>
    have ih := ih fun s hs => h s (by simp [hs])
    have hbehind (isLast : Bool) (limit : Option Nat) :
        behind (memory.withStack stack) (descend total last slots)
            (slot.process total token isLast limit (memory.withStack stack)) =
          onStack stack (behind memory (descend total last slots)
            (slot.process total token isLast limit memory)) := by
      rw [Slot.process_withStack (h slot (by simp))]
      generalize slot.process total token isLast limit memory = found
      obtain ⟨progress, after⟩ := found
      cases progress with
      | failed => rfl
      | reached next count => exact ih next after
      | fault fault => rfl
    have hcount (isLast : Bool) (limit : Option Nat) :
        (slot.process total token isLast limit (memory.withStack stack)).1 =
          (slot.process total token isLast limit memory).1 := by
      rw [Slot.process_withStack (h slot (by simp))]; rfl
    unfold descend
    split
    · rfl
    · simp only [onStack_orTry, onStack_fewer, hbehind, hcount, ih]
      split <;> rfl

/-- The recursion leaves no decision behind. -/
theorem stack_descend {slots : List Slot} (h : ∀ slot ∈ slots, slot.Lawful) (total : Nat)
    (last : Bool) (token : Nat) (memory : Memory) :
    (descend total last slots token memory).2.stack = memory.stack := by
  have heq := descend_withStack h total last token memory memory.stack
  rw [Memory.withStack_self] at heq
  exact congrArg (·.2.stack) heq

/-! ## §3 Fewer occurrences -/

namespace Slot

/-- A repetition can be cut short at any number of its occurrences. -/
theorem repeated_limit {slot : Slot} {rounds token next count limit : Nat} {memory after : Memory}
    (h : slot.repeated rounds token memory = (.reached next count, after))
    (hlimit : limit ≤ count) :
    ∃ next' after', slot.repeated limit token memory = (.reached next' limit, after') := by
  induction rounds generalizing token memory next count after limit with
  | zero =>
    cases h
    exact ⟨token, memory, by rw [Nat.le_zero.mp hlimit]; rfl⟩
  | succ rounds ih =>
    cases limit with
    | zero => exact ⟨token, memory, rfl⟩
    | succ limit =>
      unfold repeated at h ⊢
      split at h
      · rename_i middle found hattempt
        split at h
        · rename_i hmiddle
          cases h
          exact ⟨token, _, by rw [if_pos hmiddle, Nat.le_zero.mp (Nat.le_of_succ_le_succ hlimit)]⟩
        · rename_i hmiddle
          simp only [if_neg hmiddle]
          generalize hrepeated : slot.repeated rounds middle found = rest at h
          obtain ⟨progress, last⟩ := rest
          cases progress with
          | reached next' count' =>
            cases h
            obtain ⟨next'', after'', heq⟩ := ih hrepeated (Nat.le_of_succ_le_succ hlimit)
            exact ⟨next'', after'', by rw [heq]; rfl⟩
          | failed => cases h
          | fault fault => cases h
      · cases h
      · cases h
        omega

/-- A slot that occurs several times also occurs as often as a lower limit allows, unless it has
to take all words. -/
theorem process_limit {slot : Slot} {total token next count limit : Nat} {memory after : Memory}
    (h : slot.process total token false none memory = (.reached next count, after))
    (hcount : 1 < count) (hpos : 0 < limit) (hlimit : limit ≤ count) :
    ∃ next' after', slot.process total token false (some limit) memory =
      (.reached next' limit, after') := by
  unfold process at h ⊢
  simp only [Prod.mk.injEq] at h ⊢
  obtain ⟨hprogress, hafter⟩ := h
  have hsettled := settle_eq_reached hprogress
  split at hsettled
  · rename_i hrepeating
    rw [if_pos hrepeating]
    split at hsettled
    · cases hsettled
    · rename_i hpositional
      have hrepeated : slot.repeated (rounds total token none) token memory =
          (.reached next count, (slot.repeated (rounds total token none) token memory).2) :=
        Prod.ext hsettled rfl
      have hle := count_le_of_repeated hrepeated
      obtain ⟨next', after', heq⟩ := repeated_limit hrepeated hlimit
      have hrounds : rounds total token (some limit) = limit := by
        simp only [rounds] at hle ⊢
        omega
      refine ⟨next', after', ?_, ?_⟩
      · simp [hrounds, heq, settle, Nat.ne_of_gt hpos]
      · simp [hrounds, heq]
    · have := count_le_of_once (Prod.ext_iff.mpr ⟨hsettled, rfl⟩)
      omega
  · have := count_le_of_once (Prod.ext_iff.mpr ⟨hsettled, rfl⟩)
    omega

end Slot

end Match

end Synopsis
