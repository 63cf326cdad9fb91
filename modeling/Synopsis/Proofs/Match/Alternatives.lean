/-
Synopsis.Proofs.Match.Alternatives — choices among the alternatives of a choice.

The alternatives of a choice are tried one after another, so two rows of them are tried as
two choices are (`firstOf_append`). A choice that does not repeat and cannot be left out
refuses just if all its alternatives do, so it may be spread out among those of the
choice around it (`firstOf_spread`).
-/
import Synopsis.Proofs.Match.Backtracking
import Synopsis.Proofs.Match.Soundness
import Synopsis.Proofs.Node.Rereading

namespace Synopsis

open Node (spread)
open Usage (rowAlternatives)

namespace Match

open Line (Parsed)

/-! ## §1 Slots that cannot be told apart -/

/-- The slots are matched in the same way against so many words, and both or neither of them may be
left out. -/
structure Slot.Alike (total : Nat) (slot other : Slot) : Prop where
  omissible?_eq : slot.omissible? = other.omissible?
  process_eq (token : Nat) (last : Bool) (limit : Option Nat) (memory : Memory) :
    slot.process total token last limit memory = other.process total token last limit memory

theorem Slot.alike_of_eq {slot other : Slot} {total : Nat} (h : slot = other) :
    slot.Alike total other := by
  subst h
  exact ⟨rfl, fun _ _ _ _ => rfl⟩

/-- Slots that take no words may differ in whether they repeat. -/
theorem Slot.alike_of_floating {slot other : Slot} (total : Nat)
    (hmatcher : slot.toMatcher = other.toMatcher)
    (hoptional : slot.occ.optional = other.occ.optional)
    (hslot : slot.positional? = some false) (hother : other.positional? = some false) :
    slot.Alike total other where
  omissible?_eq := by simp only [omissible?, hoptional, hslot, hother]
  process_eq token last limit memory := by
    have honce : slot.once token last memory = other.once token last memory := by
      simp only [once, hmatcher]
    have hsettle : slot.settle total last = other.settle total last := by
      funext progress
      cases progress <;> simp only [settle, hoptional]
    rw [process_once fun _ => hslot, process_once fun _ => hother, honce, hsettle]

theorem Matcher.eq_of_attempt {a b : Matcher}
    (h : ∀ token last memory, a.attempt token last memory = b.attempt token last memory) :
    a = b := by
  cases a
  cases b
  simp only [Matcher.mk.injEq]
  funext token last memory
  exact h token last memory

/-- Nodes with the same marks that are matched in the same way are the same to a sequence. -/
theorem slotOf_eq {line : Parsed} {node other : Node} (hocc : node.occ = other.occ)
    (hpositional : node.positional? = other.positional?)
    (hattempt : ∀ token last memory,
      attempt line node token last memory = attempt line other token last memory) :
    slotOf line node = slotOf line other := by
  rw [slotOf, slotOf, hocc, hpositional, Matcher.eq_of_attempt hattempt]

/-- The marks of a node that is not nothing are all that changes with them. -/
theorem slotOf_withOcc {node : Node} (hfilled : node.isEmpty = false) (line : Parsed)
    (occ : Occurrence) : slotOf line (node.withOcc occ) = { slotOf line node with occ := occ } := by
  cases node with
  | empty => cases hfilled
  | _ =>
    unfold slotOf
    rw [Node.positional?_withOcc]
    rfl

/-! ## §2 Choices among the alternatives of a choice -/

/-- All that a lawful slot recorded is forgotten once the trail is cut back. -/
theorem Slot.cutTo_process {slot : Slot} (h : slot.Lawful) {total token : Nat} {last : Bool}
    {limit : Option Nat} {memory after : Memory} {progress : Progress}
    (hprocess : slot.process total token last limit memory = (progress, after)) :
    after.cutTo memory.trail.mark = memory := by
  have hextends := trail_extends_process h total token last limit memory
  have hstack := slot.stack_process total token last limit memory
  rw [hprocess] at hextends hstack
  unfold Memory.cutTo Memory.withTrail
  rw [hextends.cutTo_mark, hstack]

/-- The first of two rows of slots that matches is that of the first row, or else that of the
second. -/
theorem firstOf_append {slots : List Slot} (h : ∀ slot ∈ slots, slot.Lawful) (others : List Slot)
    (total token : Nat) (last : Bool) (memory : Memory) :
    firstOf total token last memory (slots ++ others) =
      orTry (firstOf total token last memory slots) (firstOf total token last memory others) := by
  induction slots with
  | nil => rfl
  | cons slot slots ih =>
    have ih := ih fun other hother => h other (by simp [hother])
    rw [List.cons_append, firstOf, firstOf]
    cases hprocess : slot.process total token last none memory with
    | mk progress after =>
      cases progress with
      | failed => simp only [Slot.cutTo_process (h slot (by simp)) hprocess, ih]
      | reached next count => rfl
      | fault fault => rfl

/-- The first slot that matches takes all words if it has to. -/
theorem le_of_firstOf {slots : List Slot} {total token next : Nat} {last : Bool}
    {memory after : Memory} (h : firstOf total token last memory slots = (.upTo next, after))
    (hlast : last = true) : total ≤ next := by
  induction slots generalizing memory with
  | nil => cases h
  | cons slot slots ih =>
    rw [firstOf] at h
    split at h
    · rename_i hprocess
      cases h
      exact (Slot.settled_of_process hprocess).2 hlast
    · cases h
    · exact ih h

theorem firstOf_ne_barred (slots : List Slot) (total token : Nat) (last : Bool) (memory : Memory) :
    (firstOf total token last memory slots).1 ≠ .barred := by
  induction slots generalizing memory with
  | nil => simp [firstOf]
  | cons slot slots ih =>
    rw [firstOf]
    split
    · simp
    · simp
    · exact ih _

/-- If none of the slots matches, nothing is remembered of them. -/
theorem firstOf_refused {slots : List Slot} (h : ∀ slot ∈ slots, slot.Lawful) {total token : Nat}
    {last : Bool} {memory after : Memory}
    (hfirst : firstOf total token last memory slots = (.refused, after)) : after = memory := by
  have htrail := trail_of_firstOf h hfirst (.inl rfl)
  have hstack := stack_firstOf total token last memory slots
  rw [hfirst] at hstack
  cases after
  cases memory
  simp_all

theorem attempt_choice (line : Parsed) (occ : Occurrence) (alternatives : List Node) (token : Nat)
    (last : Bool) (memory : Memory) :
    attempt line (.choice occ alternatives) token last memory =
      firstOf line.words.length token last memory (alternatives.map (slotOf line)) := by
  rw [attempt, matcher, ← slots_eq_map]
  rfl

/-- A choice without marks stands for its alternatives among those of another choice. -/
theorem firstOf_choice (line : Parsed) (alternatives : List Node) (token : Nat) (last : Bool)
    (memory : Memory) :
    firstOf line.words.length token last memory [slotOf line (.choice {} alternatives)] =
      firstOf line.words.length token last memory (alternatives.map (slotOf line)) := by
  have hlawful := lawful_map_slotOf line alternatives
  have hattempt : (slotOf line (.choice {} alternatives)).attempt token last memory =
      firstOf line.words.length token last memory (alternatives.map (slotOf line)) :=
    attempt_choice line {} ..
  have hbarred := firstOf_ne_barred (alternatives.map (slotOf line)) line.words.length token last
    memory
  rw [firstOf, Slot.process_once (by simp [slotOf, Node.occ]), Slot.once, hattempt]
  cases hfirst : firstOf line.words.length token last memory (alternatives.map (slotOf line)) with
  | mk result after =>
    cases result with
    | refused =>
      obtain rfl := firstOf_refused hlawful hfirst
      simp [Slot.settle, slotOf, Node.occ, firstOf, Memory.cutTo, Memory.withTrail]
    | barred => exact absurd (congrArg Prod.fst hfirst) hbarred
    | upTo next =>
      have hsettle : (slotOf line (.choice {} alternatives)).settle line.words.length last
          (.reached next 1) = .reached next 1 :=
        Slot.settle_eq_reached_iff.mpr ⟨rfl, by simp, le_of_firstOf hfirst⟩
      rw [hsettle]
    | fault fault => rfl

theorem firstOf_rowAlternatives (line : Parsed) {node : Node} (h : node.isLooseChoice = false)
    (token : Nat) (last : Bool) (memory : Memory) :
    firstOf line.words.length token last memory ((rowAlternatives node).map (slotOf line)) =
      firstOf line.words.length token last memory [slotOf line node] := by
  rcases Node.rowAlternatives_cases h with heq | ⟨alternatives, rfl, heq⟩
  · rw [heq]
    rfl
  · rw [heq, firstOf_choice]

/-- Choices that are spread among the alternatives of another leave it as it was. -/
theorem firstOf_spread (line : Parsed) {nodes : List Node}
    (h : ∀ node ∈ nodes.dropLast, node.isLooseChoice = false) (token : Nat) (last : Bool)
    (memory : Memory) :
    firstOf line.words.length token last memory ((spread nodes).map (slotOf line)) =
      firstOf line.words.length token last memory (nodes.map (slotOf line)) := by
  fun_induction spread nodes with
  | case1 => rfl
  | case2 => rfl
  | case3 node next nodes ih =>
    rw [List.map_append, firstOf_append (lawful_map_slotOf line _),
      firstOf_rowAlternatives line (h node (by simp)),
      ih fun other hother => h other (by simp [hother])]
    exact (firstOf_append (lawful_map_slotOf line [node]) _ _ _ _ _).symm

end Match

end Synopsis
