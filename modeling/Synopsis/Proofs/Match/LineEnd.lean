/-
Synopsis.Proofs.Match.LineEnd — what is found at the end of a line.

Whether all words have to be taken makes no difference where none is left (`ignoresLast`).
Where it makes none, an optional slot that takes words never fails (`process_ne_failed`): it
is left out if nothing else helps.
-/
import Synopsis.Proofs.Match.Alternatives

namespace Synopsis

namespace Match

open Line (Parsed)

/-! ## §1 The end of a line -/

section End

variable {line : Parsed} {node : Node} {nodes : List Node} {token : Nat}

theorem le_of_process {next count : Nat} {last : Bool} {limit : Option Nat}
    {memory after : Memory}
    (h : (slotOf line node).process line.words.length token last limit memory =
      (.reached next count, after)) : token ≤ next := by
  obtain ⟨readings, keys, -, hwalks⟩ := derives_of_process (occurs_of_attempt line node) h
  exact hwalks.next_eq ▸ Nat.le_add_right ..

/-- Behind the last word it makes no difference whether all words have to be taken. -/
def IgnoresLast (line : Parsed) (node : Node) : Prop :=
  ∀ token memory, line.words.length ≤ token →
    attempt line node token true memory = attempt line node token false memory

/-- Where all words that are left have to be taken, what is found is only settled in another way. -/
theorem exists_process_eq (h : IgnoresLast line node) (htoken : line.words.length ≤ token)
    (limit : Option Nat) (memory : Memory) :
    ∃ found : Progress × Memory, ∀ last,
      (slotOf line node).process line.words.length token last limit memory =
        ((slotOf line node).settle line.words.length last found.1, found.2) := by
  have honce (last : Bool) : (slotOf line node).once token last memory =
      (slotOf line node).once token false memory := by
    cases last with
    | false => rfl
    | true =>
      have hattempt := h token memory htoken
      unfold attempt at hattempt
      simp only [Slot.once, slotOf, hattempt]
  unfold Slot.process
  cases (slotOf line node).occ.repeating with
  | false => exact ⟨(slotOf line node).once token false memory, fun last => by rw [honce]; rfl⟩
  | true =>
    cases (slotOf line node).positional? with
    | none => exact ⟨(.fault .undetermined, memory), fun _ => rfl⟩
    | some positional =>
      cases positional with
      | false => exact ⟨(slotOf line node).once token false memory, fun last => by rw [honce]; rfl⟩
      | true => exact ⟨_, fun _ => rfl⟩

theorem process_of_ignoresLast (h : IgnoresLast line node) (htoken : line.words.length ≤ token)
    (limit : Option Nat) (memory : Memory) :
    (slotOf line node).process line.words.length token true limit memory =
      (slotOf line node).process line.words.length token false limit memory := by
  obtain ⟨⟨progress, after⟩, hfound⟩ := exists_process_eq h htoken limit memory
  rw [hfound, hfound]
  cases progress with
  | failed => rfl
  | fault fault => rfl
  | reached next count =>
    by_cases hmissing : count = 0 ∧ (slotOf line node).occ.optional = false
    · simp [Slot.settle, hmissing]
    · have hreached : (slotOf line node).settle line.words.length false (.reached next count) =
          .reached next count := by
        rw [Slot.settle, if_neg hmissing, if_neg (by simp)]
      have hprocess := hfound false
      rw [hreached] at hprocess
      have hnext := Nat.le_trans htoken (le_of_process hprocess)
      rw [hreached, Slot.settle, if_neg hmissing, if_neg (by omega)]

theorem descend_of_ignoresLast (h : ∀ node ∈ nodes, IgnoresLast line node)
    (htoken : line.words.length ≤ token) (memory : Memory) :
    descend line.words.length true (nodes.map (slotOf line)) token memory =
      descend line.words.length false (nodes.map (slotOf line)) token memory := by
  induction nodes generalizing token memory with
  | nil => rfl
  | cons node nodes ih =>
    have ih := fun token => @ih token fun other hother => h other (by simp [hother])
    have hprocess (limit : Option Nat) :
        (slotOf line node).process line.words.length token (true && (nodes.map (slotOf line)).isEmpty)
            limit memory =
          (slotOf line node).process line.words.length token
            (false && (nodes.map (slotOf line)).isEmpty) limit memory := by
      cases (nodes.map (slotOf line)).isEmpty with
      | false => rfl
      | true => exact process_of_ignoresLast (h node (by simp)) htoken limit memory
    have hbehind (last : Bool) (limit : Option Nat) :
        behind memory (descend line.words.length true (nodes.map (slotOf line)))
            ((slotOf line node).process line.words.length token last limit memory) =
          behind memory (descend line.words.length false (nodes.map (slotOf line)))
            ((slotOf line node).process line.words.length token last limit memory) := by
      cases hfound : (slotOf line node).process line.words.length token last limit memory with
      | mk progress after =>
        cases progress with
        | failed => rfl
        | fault fault => rfl
        | reached next count => exact ih next (Nat.le_trans htoken (le_of_process hfound)) after
    simp only [List.map_cons, descend, hprocess, hbehind, ih token htoken]

theorem firstOf_of_ignoresLast (h : ∀ node ∈ nodes, IgnoresLast line node)
    (htoken : line.words.length ≤ token) (memory : Memory) :
    firstOf line.words.length token true memory (nodes.map (slotOf line)) =
      firstOf line.words.length token false memory (nodes.map (slotOf line)) := by
  induction nodes generalizing memory with
  | nil => rfl
  | cons node nodes ih =>
    have ih := ih fun other hother => h other (by simp [hother])
    simp only [List.map_cons, firstOf, process_of_ignoresLast (h node (by simp)) htoken, ih]

theorem ignoresLast (line : Parsed) (node : Node) : IgnoresLast line node := by
  induction node using Node.inductionOn with
  | sequence occ children ih =>
    intro token memory htoken
    rw [attempt_sequence, attempt_sequence, allOf_eq_descend, allOf_eq_descend]
    exact descend_of_ignoresLast ih htoken memory
  | choice occ alternatives ih =>
    intro token memory htoken
    rw [attempt_choice, attempt_choice]
    exact firstOf_of_ignoresLast ih htoken memory
  | _ =>
    intro token memory _
    rw [attempt, attempt, matcher]
    rfl

end End

/-! ## §2 Choices that are never refused -/

section Open

variable {line : Parsed} {node : Node} {token : Nat} {last : Bool}

theorem takeToken_ne_barred (key : Text) (passes : Text → Bool) (trail : Trail) :
    (takeToken line key passes token trail).1 ≠ .barred := by
  unfold takeToken
  split
  · simp
  · split
    · simp
    · split <;> simp

/-- Only flags are barred. -/
theorem attempt_ne_barred (h : node.positional = true) (memory : Memory) :
    (attempt line node token last memory).1 ≠ .barred := by
  cases node with
  | literal => exact takeToken_ne_barred _ _ _
  | parameter => exact takeToken_ne_barred _ _ _
  | sequence =>
    rw [attempt_sequence, allOf_eq_descend]
    exact descend_ne_barred _ _ _ _ _
  | choice =>
    rw [attempt_choice]
    exact firstOf_ne_barred _ _ _ _ _
  | _ => cases h

theorem Slot.repeated_ne_failed (slot : Slot) (rounds token : Nat) (memory : Memory) :
    (slot.repeated rounds token memory).1 ≠ .failed := by
  induction rounds generalizing token memory with
  | zero => simp [repeated]
  | succ rounds ih =>
    unfold repeated
    split
    · rename_i next after _
      split
      · simp
      · have ih := ih next after
        cases hrest : slot.repeated rounds next after with
        | mk progress found =>
          rw [hrest] at ih
          cases progress <;> simp_all [Progress.another]
    · simp
    · simp

theorem Slot.once_ne_failed {slot : Slot} {memory : Memory}
    (h : (slot.attempt token last memory).1 ≠ .barred) :
    (slot.once token last memory).1 ≠ .failed := by
  unfold once
  split <;> simp_all

theorem Slot.settle_ne_failed {slot : Slot} (hoptional : slot.occ.optional = true) {total : Nat}
    {progress : Progress} (hprogress : progress ≠ .failed)
    (hlast : last = true → ∀ next count, progress = .reached next count → total ≤ next) :
    slot.settle total last progress ≠ .failed := by
  cases progress with
  | failed => exact absurd rfl hprogress
  | fault fault => simp [settle]
  | reached next count =>
    rw [settle_of_optional hoptional, if_neg]
    · simp
    · rintro ⟨h, hover⟩
      exact absurd (hlast h next count rfl) (Nat.not_le.mpr hover)

/-- An open slot is there or left out, unless it has to take words that it does not take. -/
theorem process_ne_failed (h : node.isOpen = true) (hlast : last = true → line.words.length ≤ token)
    (limit : Option Nat) (memory : Memory) :
    ((slotOf line node).process line.words.length token last limit memory).1 ≠ .failed := by
  obtain ⟨hoptional, hpositional⟩ := Node.isOpen_iff.mp h
  have hposition : node.positional? = some true := by simpa [Node.positional] using hpositional
  by_cases hrepeating : node.repeating = true
  · rw [Slot.process_repeating hrepeating hposition]
    refine Slot.settle_ne_failed hoptional (Slot.repeated_ne_failed _ _ _ _) ?_
    intro h next count hreached
    rcases derives_of_repeated (occurs_of_attempt line node) hrepeating hposition
      (Prod.ext hreached rfl) with ⟨-, _, _, -, hwalks⟩ | ⟨-, rfl, -⟩
    · have hnext := hwalks.next_eq
      have hle := hlast h
      omega
    · exact hlast h
  · rw [Slot.process_once fun h => absurd h hrepeating]
    refine Slot.settle_ne_failed hoptional
      (Slot.once_ne_failed (attempt_ne_barred hpositional memory)) ?_
    intro h next count hreached
    rcases derives_of_once (occurs_of_attempt line node) (Prod.ext hreached rfl) with
      ⟨-, _, _, -, hwalks⟩ | ⟨-, rfl, -⟩
    · have hnext := hwalks.next_eq
      have hle := hlast h
      omega
    · exact hlast h

/-- A choice with an open slot among its alternatives is not refused. -/
theorem firstOf_ne_refused {nodes : List Node} (h : ∃ node ∈ nodes, node.isOpen = true)
    (hlast : last = true → line.words.length ≤ token) (memory : Memory) :
    (firstOf line.words.length token last memory (nodes.map (slotOf line))).1 ≠ .refused := by
  induction nodes generalizing memory with
  | nil => simp at h
  | cons node nodes ih =>
    rw [List.map_cons, firstOf]
    split
    · simp
    · simp
    · rename_i after hprocess
      have hnot : ¬ node.isOpen = true := fun hopen =>
        process_ne_failed hopen hlast none memory (congrArg Prod.fst hprocess)
      refine ih ?_ _
      obtain ⟨other, hother, hopen⟩ := h
      rcases List.mem_cons.mp hother with rfl | hother
      · exact absurd hopen hnot
      · exact ⟨other, hother, hopen⟩

end Open

end Match

end Synopsis
