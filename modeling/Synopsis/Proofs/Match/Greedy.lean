/-
Synopsis.Proofs.Match.Greedy — a search takes what occurs most often first.

An element is rigid if the words that one occurrence takes are fixed by the place
where it begins, as they are for a literal or a parameter, and for a group of these
without marks. A search through rigid elements and flags accepts the greatest of the
assignments that it can accept, and is refused only if there is none
(`found_descend`). The proof goes along the recursion `descend`: the numbers of
occurrences of the first element are tried from the greatest down, and each of them
is settled by the search through the others.
-/
import Synopsis.Proofs.Line.Flags
import Synopsis.Proofs.Match.Assignment
import Synopsis.Proofs.Match.Soundness

namespace Synopsis

namespace Match

open Line (Parsed)

/-! ## §1 Rigid elements -/

/-- The node takes words, and which ones is fixed by the place where it begins. It is there
whenever these words are, unless it has to take all words and they are not all. -/
structure Rigid (line : Parsed) (node : Node) : Prop where
  positional : node.positional? = some true
  length_pos {readings : List Reading} (h : Occurs line.flags node readings []) :
    0 < readings.length
  unique {token : Nat} {readings readings' : List Reading}
    (h : Occurs line.flags node readings []) (h' : Occurs line.flags node readings' [])
    (hspells : Spells line token readings) (hspells' : Spells line token readings') :
    readings = readings'
  attempt_cases {token : Nat} (htoken : token ≤ line.words.length) (last : Bool) (memory : Memory) :
    (∃ readings, Occurs line.flags node readings [] ∧ Spells line token readings ∧
      attempt line node token last memory = (.upTo (token + readings.length),
        memory.withTrail (memory.trail.note token readings []))) ∨
    (attempt line node token last memory = (.refused, memory) ∧
      ∀ readings, Occurs line.flags node readings [] → Spells line token readings →
        last = true ∧ token + readings.length ≠ line.words.length)

section Rigid

variable {line : Parsed} {node : Node} {token count : Nat} {readings readings' : List Reading}

theorem Rigid.isPositional (h : Rigid line node) : node.positional = true := by
  simp [Node.positional, h.positional]

/-- How often a rigid element occurs determines which words it takes. -/
theorem Rigid.times_unique (h : Rigid line node) (htimes : Times line.flags node count readings)
    (htimes' : Times line.flags node count readings') (hspells : Spells line token readings)
    (hspells' : Spells line token readings') : readings = readings' := by
  induction htimes generalizing token readings' with
  | zero =>
    cases htimes'
    rfl
  | succ hoccurs hrest ih =>
    cases htimes' with
    | succ hoccurs' hrest' =>
      rw [spells_append] at hspells hspells'
      obtain rfl := h.unique hoccurs hoccurs' hspells.1 hspells'.1
      rw [ih hrest' hspells.2 hspells'.2]

/-- Every occurrence takes a word. -/
theorem Rigid.le_length (h : Rigid line node) (htimes : Times line.flags node count readings) :
    count ≤ readings.length := by
  induction htimes with
  | zero => exact Nat.le_refl _
  | succ hoccurs _ ih =>
    have := h.length_pos hoccurs
    rw [List.length_append]
    omega

/-- More occurrences take more words. -/
theorem Rigid.length_le (h : Rigid line node) (htimes : Times line.flags node count readings)
    (hspells : Spells line token readings) {fewer : Nat} (hle : fewer ≤ count)
    (htimes' : Times line.flags node fewer readings') (hspells' : Spells line token readings') :
    readings'.length ≤ readings.length := by
  obtain ⟨front, rest, rfl, hfront, -⟩ := htimes.take hle
  rw [h.times_unique htimes' hfront hspells' (spells_append.mp hspells).1, List.length_append]
  exact Nat.le_add_right _ _

/-- A repetition finds as many occurrences as there are, if it has rounds for them. -/
theorem Rigid.repeated (h : Rigid line node) (htoken : token ≤ line.words.length) (rounds : Nat)
    (memory : Memory) :
    ∃ count readings, Times line.flags node count readings ∧ Spells line token readings ∧
      count ≤ rounds ∧
      (slotOf line node).repeated rounds token memory = (.reached (token + readings.length) count,
        memory.withTrail (memory.trail.note token readings [])) ∧
      (count < rounds → ∀ readings', Times line.flags node (count + 1) readings' →
        ¬ Spells line token readings') := by
  induction rounds generalizing token memory with
  | zero =>
    refine ⟨0, [], .zero, trivial, Nat.le_refl _, ?_, ?_⟩
    · rw [Slot.repeated, Trail.note_nil]; rfl
    · exact fun hlt => absurd hlt (Nat.not_lt_zero _)
  | succ rounds ih =>
    rcases h.attempt_cases htoken false memory with
      ⟨readings, hoccurs, hspells, hattempt⟩ | ⟨hattempt, hnone⟩
    · have hpos := h.length_pos hoccurs
      obtain ⟨count, rest, htimes, hspells', hle, hrepeated, hmost⟩ :=
        ih (le_length_of_spells hspells htoken)
          (memory.withTrail (memory.trail.note token readings []))
      refine ⟨count + 1, readings ++ rest, .succ hoccurs htimes,
        spells_append.mpr ⟨hspells, hspells'⟩, Nat.succ_le_succ hle, ?_, ?_⟩
      · have hmoved : ¬ token + readings.length = token := by omega
        have hslot : (slotOf line node).attempt token false memory =
            (.upTo (token + readings.length),
              memory.withTrail (memory.trail.note token readings [])) := hattempt
        rw [Slot.repeated, hslot]
        simp only [if_neg hmoved]
        rw [hrepeated]
        simp only [Progress.another, Memory.trail_withTrail, Trail.note_note]
        rw [List.length_append, Nat.add_assoc]
        rfl
      · intro hlt readings' htimes' hspells''
        cases htimes' with
        | succ hoccurs' hrest' =>
          rw [spells_append] at hspells''
          obtain rfl := h.unique hoccurs hoccurs' hspells hspells''.1
          exact hmost (by omega) _ hrest' hspells''.2
    · refine ⟨0, [], .zero, trivial, Nat.zero_le _, ?_, ?_⟩
      · have hslot : (slotOf line node).attempt token false memory = (.refused, memory) := hattempt
        rw [Slot.repeated, hslot, Trail.note_nil]
        rfl
      · intro _ readings' htimes' hspells'
        cases htimes' with
        | succ hoccurs' hrest' =>
          have := (hnone _ hoccurs' (spells_append.mp hspells').1).1
          cases this

/-- A repetition that may go on for just as many rounds as there are occurrences finds them. -/
theorem Rigid.repeated_eq (h : Rigid line node) (htimes : Times line.flags node count readings)
    (hspells : Spells line token readings) (htoken : token ≤ line.words.length) (memory : Memory) :
    (slotOf line node).repeated count token memory = (.reached (token + readings.length) count,
      memory.withTrail (memory.trail.note token readings [])) := by
  obtain ⟨count', readings', htimes', hspells', hle, hrepeated, hmost⟩ :=
    h.repeated htoken count memory
  have hcount : count' = count := by
    by_cases hlt : count' < count
    · obtain ⟨front, rest, rfl, hfront, -⟩ := htimes.take hlt
      exact absurd (spells_append.mp hspells).1 (hmost hlt front hfront)
    · omega
  subst hcount
  rw [hrepeated, h.times_unique htimes' htimes hspells' hspells]

end Rigid

/-! ## §2 One element with its marks -/

/-- The element occurs so many times from the given word on, and never more often. -/
structure MostOften (line : Parsed) (node : Node) (token count : Nat) (readings : List Reading) :
    Prop where
  times : Times line.flags node count readings
  spells : Spells line token readings
  repeating_of_more : 1 < count → node.repeating = true
  count_le {count' : Nat} {readings' : List Reading} (hallows : Allows node count')
    (htimes : Times line.flags node count' readings') (hspells : Spells line token readings') :
    count' ≤ count

section Element

variable {line : Parsed} {node : Node} {token : Nat}

/-- What matching an element with its marks comes to: it reaches as far as it occurs, or it fails
because it is missing or leaves words over. -/
def Comes (line : Parsed) (node : Node) (token count : Nat) (readings : List Reading) (last : Bool)
    (memory : Memory) (found : Progress × Memory) : Prop :=
  ((count = 0 → node.optional = true) ∧
    (last = true → line.words.length ≤ token + readings.length) ∧
    found = (.reached (token + readings.length) count,
      memory.withTrail (memory.trail.note token readings []))) ∨
  (¬ ((count = 0 → node.optional = true) ∧
      (last = true → line.words.length ≤ token + readings.length)) ∧ found.1 = .failed)

theorem comes_of_settle {count : Nat} {readings : List Reading} {last : Bool} {memory : Memory} :
    Comes line node token count readings last memory
      ((slotOf line node).settle line.words.length last (.reached (token + readings.length) count),
        memory.withTrail (memory.trail.note token readings [])) := by
  by_cases h : (count = 0 → node.optional = true) ∧
      (last = true → line.words.length ≤ token + readings.length)
  · refine .inl ⟨h.1, h.2, ?_⟩
    rw [Slot.settle_eq_reached_iff.mpr ⟨rfl, h⟩]
  · exact .inr ⟨h, Slot.settle_eq_failed h⟩

/-- A repeated element is matched as often as it occurs. -/
theorem Rigid.comes_of_repeating (h : Rigid line node) (hrepeating : node.repeating = true)
    (htoken : token ≤ line.words.length) (last : Bool) (memory : Memory) :
    ∃ count readings, MostOften line node token count readings ∧
      Comes line node token count readings last memory
        (process line node token last none memory) := by
  obtain ⟨count, readings, htimes, hspells, -, hrepeated, hmost⟩ :=
    h.repeated htoken (Slot.rounds line.words.length token none) memory
  refine ⟨count, readings, ⟨htimes, hspells, fun _ => hrepeating, ?_⟩, ?_⟩
  · intro count' readings' _ htimes' hspells'
    by_cases hlt : count < count'
    · obtain ⟨front, rest, rfl, hfront, -⟩ := htimes'.take hlt
      have hle := h.le_length htimes
      have hwords := le_length_of_spells hspells htoken
      have hrounds : count < Slot.rounds line.words.length token none := by
        rw [Slot.rounds]; omega
      exact absurd (spells_append.mp hspells').1 (hmost hrounds front hfront)
    · omega
  · unfold process
    rw [Slot.process_repeating hrepeating h.positional, hrepeated]
    exact comes_of_settle

/-- An element that is not repeated is matched once if it occurs. -/
theorem Rigid.comes_of_once (h : Rigid line node) (hrepeating : node.repeating = false)
    (htoken : token ≤ line.words.length) (last : Bool) (memory : Memory) :
    ∃ count readings, MostOften line node token count readings ∧
      Comes line node token count readings last memory
        (process line node token last none memory) := by
  have honce : (slotOf line node).occ.repeating = true →
      (slotOf line node).positional? = some false :=
    fun hrep => absurd (hrep.symm.trans hrepeating) (by simp)
  have hle {count' : Nat} (hallows : Allows node count') : count' ≤ 1 := by
    by_cases hmore : 1 < count'
    · have := hallows.repeating_of_more hmore
      rw [hrepeating] at this
      cases this
    · omega
  have hmost {readings : List Reading} (hoccurs : Occurs line.flags node readings [])
      (hspells : Spells line token readings) : MostOften line node token 1 readings :=
    ⟨times_one_iff.mpr hoccurs, hspells, by omega, fun hallows _ _ => hle hallows⟩
  rcases h.attempt_cases htoken last memory with
    ⟨readings, hoccurs, hspells, hattempt⟩ | ⟨hattempt, hnone⟩
  · refine ⟨1, readings, hmost hoccurs hspells, ?_⟩
    have hslot : (slotOf line node).once token last memory = (.reached (token + readings.length) 1,
        memory.withTrail (memory.trail.note token readings [])) := by
      unfold Slot.once
      rw [show (slotOf line node).attempt token last memory = _ from hattempt]
    unfold process
    rw [Slot.process_once honce, hslot]
    exact comes_of_settle
  · have hslot : (slotOf line node).once token last memory = (.reached token 0, memory) := by
      unfold Slot.once
      rw [show (slotOf line node).attempt token last memory = _ from hattempt]
    unfold process
    rw [Slot.process_once honce, hslot]
    by_cases hthere : ∃ readings, Occurs line.flags node readings [] ∧ Spells line token readings
    · -- the element is there, but it is the last one and leaves words over
      obtain ⟨readings, hoccurs, hspells⟩ := hthere
      obtain ⟨hlast, hover⟩ := hnone readings hoccurs hspells
      have hwords := le_length_of_spells hspells htoken
      have hpos := h.length_pos hoccurs
      refine ⟨1, readings, hmost hoccurs hspells, ?_⟩
      refine .inr ⟨fun hall => ?_, Slot.settle_eq_failed fun hall => ?_⟩
      · have := hall.2 hlast
        omega
      · have := hall.2 hlast
        omega
    · refine ⟨0, [], ⟨.zero, trivial, by omega, ?_⟩, ?_⟩
      · intro count' readings' hallows htimes' hspells'
        cases htimes' with
        | zero => exact Nat.le_refl _
        | succ hoccurs' _ => exact absurd ⟨_, hoccurs', (spells_append.mp hspells').1⟩ hthere
      · have hcomes := @comes_of_settle line node token 0 [] last memory
        rw [Trail.note_nil] at hcomes
        exact hcomes

/-- A rigid element is matched as often as it occurs, and its marks allow. -/
theorem Rigid.comes (h : Rigid line node) (htoken : token ≤ line.words.length) (last : Bool)
    (memory : Memory) :
    ∃ count readings, MostOften line node token count readings ∧
      Comes line node token count readings last memory
        (process line node token last none memory) := by
  cases hrepeating : node.repeating with
  | true => exact h.comes_of_repeating hrepeating htoken last memory
  | false => exact h.comes_of_once hrepeating htoken last memory

/-- With a lower limit an element is matched just as often as that. -/
theorem Rigid.process_limit (h : Rigid line node) {most limit : Nat} {readings : List Reading}
    (hmost : MostOften line node token most readings) (hpos : 0 < limit) (hlt : limit < most)
    (htoken : token ≤ line.words.length) (memory : Memory) :
    ∃ front, Times line.flags node limit front ∧ Spells line token front ∧
      process line node token false (some limit) memory = (.reached (token + front.length) limit,
        memory.withTrail (memory.trail.note token front [])) := by
  obtain ⟨front, rest, rfl, htimes, -⟩ := hmost.times.take (Nat.le_of_lt hlt)
  have hspells := (spells_append.mp hmost.spells).1
  have hle := h.le_length htimes
  have hwords := le_length_of_spells hspells htoken
  have hrounds : Slot.rounds line.words.length token (some limit) = limit := by
    rw [Slot.rounds]; omega
  refine ⟨front, htimes, hspells, ?_⟩
  unfold process
  rw [Slot.process_repeating (hmost.repeating_of_more (by omega)) h.positional, hrounds,
    h.repeated_eq htimes hspells htoken]
  rw [Slot.settle_eq_reached_iff.mpr ⟨rfl, by omega, by simp⟩]

end Element

/-! ## §3 Flags -/

def accepts : Node → Option Text → Bool
  | .flag _ _, given => given.isNone
  | .setting _ _ value, given => value.admitsGiven given
  | _, _ => false

/-- A flag that was given has a value it can have, and one that was not given is optional. Of other
nodes nothing is said. -/
def Suits (flags : FlagTable) (node : Node) : Prop :=
  ∀ key, flagKey? node = some key →
    (∀ given, flags.get? key = some given → accepts node given = true) ∧
    (flags.get? key = none → node.optional = true)

section Flag

variable {line : Parsed} {node : Node} {key : Text}

theorem positional?_of_flagKey? (hkey : flagKey? node = some key) :
    node.positional? = some false := by
  cases node <;> simp_all [flagKey?, Node.positional?]

theorem positional_of_flagKey? (hkey : flagKey? node = some key) : node.positional = false := by
  simp [Node.positional, positional?_of_flagKey? hkey]

theorem attempt_of_flagKey? (hkey : flagKey? node = some key) (token : Nat) (last : Bool)
    (memory : Memory) :
    attempt line node token last memory =
      ((takeFlag line key (accepts node) token memory.trail).1,
        memory.withTrail (takeFlag line key (accepts node) token memory.trail).2) := by
  unfold attempt
  cases node with
  | flag occ key' =>
    cases hkey
    rw [matcher]
    rfl
  | setting occ key' value =>
    cases hkey
    rw [matcher]
    rfl
  | _ => cases hkey

theorem suits_iff_of_missing (hkey : flagKey? node = some key)
    (hmissing : line.flags.get? key = none) :
    Suits line.flags node ↔ node.optional = true := by
  simp [Suits, hkey, hmissing]

theorem suits_iff_of_given (hkey : flagKey? node = some key) {given : Option Text}
    (hgiven : line.flags.get? key = some given) :
    Suits line.flags node ↔ accepts node given = true := by
  simp [Suits, hkey, hgiven]

/-- What matching a flag comes to: it stays where it is and is admitted if it was given, or it fails
because it does not suit or leaves words over at the end. -/
def Stays (line : Parsed) (node : Node) (key : Text) (token : Nat) (last : Bool) (memory : Memory)
    (found : Progress × Memory) : Prop :=
  (Suits line.flags node ∧ (last = true → line.words.length ≤ token) ∧
    ∃ count keys, count ≤ 1 ∧ (∀ key', key' ∈ keys ↔ key' ∈ line.flags.keys ∧ key' = key) ∧
      found = (.reached token count, memory.withTrail (memory.trail.note token [] keys))) ∨
  (¬ (Suits line.flags node ∧ (last = true → line.words.length ≤ token)) ∧ found.1 = .failed)

/-- A flag that was not given has to be optional. -/
theorem stays_of_missing (hkey : flagKey? node = some key)
    (hmissing : line.flags.get? key = none) (token : Nat) (last : Bool) (memory : Memory) :
    Stays line node key token last memory
      ((slotOf line node).settle line.words.length last (.reached token 0), memory) := by
  have hsuits := suits_iff_of_missing hkey hmissing
  by_cases hall : node.optional = true ∧ (last = true → line.words.length ≤ token)
  · refine .inl ⟨hsuits.mpr hall.1, hall.2, 0, [], Nat.zero_le _, fun key' => ?_, ?_⟩
    · refine ⟨fun h => absurd h (by simp), ?_⟩
      rintro ⟨hmem, rfl⟩
      rw [FlagTable.mem_keys_iff, hmissing] at hmem
      cases hmem
    · rw [Slot.settle_eq_reached_iff.mpr ⟨rfl, fun _ => hall.1, hall.2⟩, Trail.note_nil]
      rfl
  · refine .inr ⟨fun h => hall ⟨hsuits.mp h.1, h.2⟩, ?_⟩
    exact Slot.settle_eq_failed fun h => hall ⟨h.1 rfl, h.2⟩

/-- A flag that was given with a value it can have is admitted. -/
theorem stays_of_accepts (hkey : flagKey? node = some key) {given : Option Text}
    (hgiven : line.flags.get? key = some given) (haccepts : accepts node given = true)
    (token : Nat) (last : Bool) (memory : Memory) :
    Stays line node key token last memory
      ((slotOf line node).settle line.words.length last (.reached token 1),
        memory.withTrail (memory.trail.note token [] [key])) := by
  by_cases hall : last = true → line.words.length ≤ token
  · have hmem : key ∈ line.flags.keys :=
      FlagTable.mem_keys_iff.mpr (Option.isSome_of_eq_some hgiven)
    refine .inl ⟨(suits_iff_of_given hkey hgiven).mpr haccepts, hall, 1, [key], Nat.le_refl _,
      fun key' => ?_, ?_⟩
    · rw [List.mem_singleton]
      exact ⟨fun heq => ⟨heq ▸ hmem, heq⟩, And.right⟩
    · rw [Slot.settle_eq_reached_iff.mpr ⟨rfl, by simp, hall⟩]
  · refine .inr ⟨fun h => hall h.2, ?_⟩
    show (slotOf line node).settle line.words.length last (.reached token 1) = .failed
    exact Slot.settle_eq_failed fun h => hall h.2

theorem once_of_flagKey? (hkey : flagKey? node = some key) (token : Nat) (last : Bool)
    (memory : Memory) :
    (slotOf line node).once token last memory =
      (line.flags.get? key).elim (.reached token 0, memory) fun given =>
        if accepts node given then
          (.reached token 1, memory.withTrail (memory.trail.note token [] [key]))
        else (.failed, memory) := by
  have hattempt : (slotOf line node).attempt token last memory = _ :=
    attempt_of_flagKey? hkey token last memory
  rw [Slot.once, hattempt, takeFlag]
  cases line.flags.get? key with
  | none => rfl
  | some given =>
    cases haccepts : accepts node given with
    | true => simp [haccepts, Trail.note, Trail.allow, Reading.captures]
    | false => simp [haccepts]; rfl

/-- A flag stays where it is. It fails if it does not suit or if it leaves words over at the end,
and otherwise it is admitted if it was given. -/
theorem stays_of_flagKey? (hkey : flagKey? node = some key) (token : Nat) (last : Bool)
    (memory : Memory) :
    Stays line node key token last memory (process line node token last none memory) := by
  have honce := Slot.process_once (show (slotOf line node).occ.repeating = true →
    (slotOf line node).positional? = some false from fun _ => positional?_of_flagKey? hkey)
    line.words.length token last none memory
  unfold process
  rw [honce, once_of_flagKey? hkey]
  cases hgiven : line.flags.get? key with
  | none => exact stays_of_missing hkey hgiven token last memory
  | some given =>
    simp only [Option.elim_some]
    by_cases haccepts : accepts node given = true
    · rw [if_pos haccepts]
      exact stays_of_accepts hkey hgiven haccepts token last memory
    · rw [if_neg haccepts]
      exact .inr ⟨fun h => haccepts ((suits_iff_of_given hkey hgiven).mp h.1), rfl⟩

end Flag

/-! ## §4 The search -/

/-- What a search through nodes finds. It takes the greatest assignment that is accepted, walks
along its readings and admits the flags that were given for its nodes. It is refused, and then
remembers nothing, if nothing is accepted or some flag does not suit. -/
inductive Found (line : Parsed) (last : Bool) (nodes : List Node) (token : Nat) (memory : Memory) :
    Attempt × Memory → Prop where
  | upTo {counts : List Nat} {readings : List Reading} {keys : List Text} {next : Nat}
    {after : Memory} (hgreatest : Greatest line last nodes token counts readings)
    (hwalks : Walks line token next memory.trail after.trail readings keys)
    (hsuits : ∀ node ∈ nodes, Suits line.flags node)
    (hkeys : ∀ key, key ∈ keys ↔
      key ∈ line.flags.keys ∧ ∃ node ∈ nodes, flagKey? node = some key) :
    Found line last nodes token memory (.upTo next, after)
  | refused (hnone : (∀ node ∈ nodes, Suits line.flags node) → ∀ counts readings,
      ¬ Accepted line last nodes token counts readings) :
    Found line last nodes token memory (.refused, memory)

/-- An element that a search through a sequence of rigid elements and flags can meet. -/
def Plain (line : Parsed) (node : Node) : Prop :=
  Rigid line node ∨ ∃ key, flagKey? node = some key

section Search

variable {line : Parsed} {last : Bool} {node : Node} {nodes : List Node} {token : Nat}
  {memory : Memory}

/-- The recursion at a rigid element. -/
theorem Rigid.descend_cons (h : Rigid line node) (total : Nat) (slots : List Slot) (last : Bool)
    (token : Nat) (memory : Memory) :
    descend total last (slotOf line node :: slots) token memory =
      let found (limit : Option Nat) : Progress × Memory :=
        (slotOf line node).process total token (last && slots.isEmpty) limit memory
      orTry (behind memory (descend total last slots) (found none))
        (orTry (fewer memory (fun limit => behind memory (descend total last slots)
            (found (some limit))) ((found none).1.count - 1))
          (if node.optional then descend total last slots token memory
            else (.refused, memory))) := by
  have homissible : (slotOf line node).omissible? = some node.optional := by
    show (if node.optional then node.positional? else some false) = some node.optional
    rw [h.positional]
    cases node.optional <;> rfl
  rw [descend, homissible]

/-- The recursion at a flag. -/
theorem descend_flag {key : Text} (hkey : flagKey? node = some key) {total : Nat}
    {slots : List Slot} {found : Progress × Memory}
    (hfound : (slotOf line node).process total token (last && slots.isEmpty) none memory = found)
    (hcount : found.1.count ≤ 1) :
    descend total last (slotOf line node :: slots) token memory =
      orTry (behind memory (descend total last slots) found) (.refused, memory) := by
  have homissible : (slotOf line node).omissible? = some false := by
    unfold Slot.omissible?
    split
    · exact positional?_of_flagKey? hkey
    · rfl
  rw [descend, homissible]
  simp only [hfound, Nat.sub_eq_zero_of_le hcount, fewer, Bool.false_eq_true, if_false]
  rfl

/-- The first limit, counted down, with which something matches. -/
theorem fewer_first {memory : Memory} (with? : Nat → Attempt × Memory) (limit : Nat) :
    (fewer memory with? limit = (.refused, memory) ∧
      ∀ count, 0 < count → count ≤ limit → (with? count).1 = .refused) ∨
    ∃ count, 0 < count ∧ count ≤ limit ∧ fewer memory with? limit = with? count ∧
      (with? count).1 ≠ .refused ∧
      ∀ count', count < count' → count' ≤ limit → (with? count').1 = .refused := by
  induction limit with
  | zero => exact .inl ⟨rfl, by omega⟩
  | succ limit ih =>
    rw [fewer]
    by_cases hlimit : (with? (limit + 1)).1 = .refused
    · rw [orTry_of_eq hlimit]
      rcases ih with ⟨heq, hnone⟩ | ⟨count, hpos, hle, heq, hmatch, hbefore⟩
      · refine .inl ⟨heq, fun count hpos hle => ?_⟩
        rcases Nat.lt_or_eq_of_le hle with hlt | rfl
        · exact hnone count hpos (Nat.le_of_lt_succ hlt)
        · exact hlimit
      · refine .inr ⟨count, hpos, Nat.le_succ_of_le hle, heq, hmatch, fun count' hlt hle' => ?_⟩
        rcases Nat.lt_or_eq_of_le hle' with hlt' | rfl
        · exact hbefore count' hlt (Nat.le_of_lt_succ hlt')
        · exact hlimit
    · rw [orTry_of_ne hlimit]
      exact .inr ⟨limit + 1, Nat.succ_pos _, Nat.le_refl _, rfl, hlimit, by omega⟩

theorem Found.eq_of_refused {result : Attempt × Memory}
    (h : Found line last nodes token memory result) (hresult : result.1 = .refused) :
    result = (.refused, memory) := by
  cases h with
  | upTo => cases hresult
  | refused => rfl

/-- If the other nodes refuse what comes after so many occurrences of a rigid element, nothing with
so many occurrences is accepted. -/
theorem Rigid.not_accepted (h : Rigid line node) {count : Nat} {readings : List Reading}
    (htimes : Times line.flags node count readings) (hspells : Spells line token readings)
    {memory' : Memory} {result : Attempt × Memory}
    (hfound : Found line last nodes (token + readings.length) memory' result)
    (hresult : result.1 = .refused) (hsuits : ∀ other ∈ nodes, Suits line.flags other)
    (counts : List Nat) (readings' : List Reading) :
    ¬ Accepted line last (node :: nodes) token (count :: counts) readings' := by
  intro haccepted
  obtain ⟨_, _, front, behind, hcons, rfl, -, htimes', hspells', -, hrest⟩ :=
    cases_of_accepted_node h.isPositional haccepted
  cases hcons
  rw [h.times_unique htimes' htimes hspells' hspells] at hrest
  cases hfound with
  | upTo => cases hresult
  | refused hnone => exact hnone hsuits _ _ hrest

/-- Nothing is accepted in which a rigid element occurs more often than it does. -/
theorem Rigid.not_accepted_of_most (h : Rigid line node) {most : Nat} {readings : List Reading}
    (hmost : MostOften line node token most readings) {count : Nat} (hlt : most < count)
    (counts : List Nat) (readings' : List Reading) :
    ¬ Accepted line last (node :: nodes) token (count :: counts) readings' := by
  intro haccepted
  obtain ⟨_, _, _, _, hcons, -, hallows, htimes, hspells, -⟩ :=
    cases_of_accepted_node h.isPositional haccepted
  cases hcons
  have := hmost.count_le hallows htimes hspells
  omega

/-- Behind so many occurrences of a rigid element the search goes on, and it has found what is
greatest if nothing with more occurrences is accepted. -/
theorem Rigid.found_behind (h : Rigid line node) {count : Nat} {readings : List Reading}
    (hallows : Allows node count) (htimes : Times line.flags node count readings)
    (hspells : Spells line token readings)
    (hend : last = true → nodes = [] → count ≠ 0 → token + readings.length = line.words.length)
    {result : Attempt × Memory}
    (hfound : Found line last nodes (token + readings.length)
      (memory.withTrail (memory.trail.note token readings [])) result)
    (hresult : result.1 ≠ .refused)
    (hmore : ∀ count', count < count' → (∀ other ∈ nodes, Suits line.flags other) →
      ∀ counts readings', ¬ Accepted line last (node :: nodes) token (count' :: counts) readings') :
    Found line last (node :: nodes) token memory result := by
  cases hfound with
  | refused => exact absurd rfl hresult
  | upTo hgreatest hwalks hsuits hkeys =>
    have hnokey : flagKey? node = none := flagKey?_eq_none h.positional
    have hfirst : Walks line token (token + readings.length) memory.trail
      (memory.trail.note token readings []) readings [] := ⟨rfl, hspells, rfl⟩
    refine .upTo
      ⟨.node h.isPositional hallows htimes hspells hend hgreatest.accepted, ?_⟩
      (hfirst.trans hwalks) ?_ ?_
    · intro counts' readings' haccepted'
      obtain ⟨count', rest, front, behind, rfl, rfl, -, htimes', hspells', -, hrest⟩ :=
        cases_of_accepted_node h.isPositional haccepted'
      rw [noGreater_cons_iff]
      rcases Nat.lt_trichotomy count' count with hlt | rfl | hgt
      · exact .inl hlt
      · rw [h.times_unique htimes' htimes hspells' hspells] at hrest
        exact .inr ⟨rfl, hgreatest.le hrest⟩
      · exact absurd haccepted' (hmore count' hgt hsuits _ _)
    · intro other hother
      rcases List.mem_cons.mp hother with rfl | hother
      · intro key hkey
        rw [hnokey] at hkey
        cases hkey
      · exact hsuits other hother
    · intro key
      rw [List.nil_append, hkeys key]
      simp [hnokey]

/-- The search is refused if nothing is accepted with any number of occurrences. -/
theorem Rigid.found_nothing (h : Rigid line node)
    (hnone : ∀ count counts readings, (∀ other ∈ nodes, Suits line.flags other) →
      ¬ Accepted line last (node :: nodes) token (count :: counts) readings) :
    Found line last (node :: nodes) token memory (.refused, memory) := by
  refine .refused fun hsuits counts readings haccepted => ?_
  obtain ⟨count, rest, front, behind, rfl, -⟩ := cases_of_accepted_node h.isPositional haccepted
  exact hnone count rest readings (fun other hother => hsuits other (by simp [hother])) haccepted

/-- If nothing is accepted in which a rigid element occurs, the search finds what it finds without
the element, or nothing if that may not be left out. -/
theorem Rigid.found_without (h : Rigid line node) {result : Attempt × Memory}
    (hfound : Found line last nodes token memory result)
    (hmore : ∀ count, 0 < count → (∀ other ∈ nodes, Suits line.flags other) →
      ∀ counts readings, ¬ Accepted line last (node :: nodes) token (count :: counts) readings) :
    Found line last (node :: nodes) token memory
      (if node.optional then result else (.refused, memory)) := by
  cases hoptional : node.optional with
  | false =>
    refine h.found_nothing fun count counts readings hsuits haccepted => ?_
    rcases Nat.eq_zero_or_pos count with rfl | hpos
    · obtain ⟨_, _, _, _, hcons, -, hallows, -⟩ :=
        cases_of_accepted_node h.isPositional haccepted
      cases hcons
      have := hallows.optional_of_zero rfl
      rw [hoptional] at this
      cases this
    · exact hmore count hpos hsuits counts readings haccepted
  | true =>
    have hbehind : Found line last nodes (token + ([] : List Reading).length)
        (memory.withTrail (memory.trail.note token [] [])) result := by
      rw [Trail.note_nil]
      exact hfound
    rw [if_pos rfl]
    by_cases hresult : result.1 = .refused
    · rw [hfound.eq_of_refused hresult]
      refine h.found_nothing fun count counts readings hsuits => ?_
      rcases Nat.eq_zero_or_pos count with rfl | hpos
      · exact h.not_accepted .zero trivial hbehind hresult hsuits counts readings
      · exact hmore count hpos hsuits counts readings
    · exact h.found_behind ⟨fun _ => hoptional, by omega⟩ .zero trivial (by simp) hbehind hresult
        hmore

/-- The search at the last node, if it is rigid and all words have to be taken. -/
theorem Rigid.found_last (h : Rigid line node) (htoken : token ≤ line.words.length) :
    Found line true [node] token memory
      (descend line.words.length true [slotOf line node] token memory) := by
  obtain ⟨most, readings, hmost, hcomes⟩ := h.comes htoken true memory
  unfold process at hcomes
  rw [h.descend_cons]
  simp only [List.isEmpty_nil, Bool.and_self]
  generalize (slotOf line node).process line.words.length token true none memory = found at hcomes
  have hwords := le_length_of_spells hmost.spells htoken
  have hallows (hopt : most = 0 → node.optional = true) : Allows node most :=
    ⟨hopt, hmost.repeating_of_more⟩
  -- behind the last node everything is accepted
  have hall (memory' : Memory) (token' : Nat) :
      Found line true [] token' memory' (.upTo token', memory') :=
    .upTo ⟨.nil, by rintro _ _ ⟨⟩; exact noGreater_refl _⟩ (.refl _ _ _) (by simp) (by simp)
  rcases hcomes with ⟨hopt, hleft, rfl⟩ | ⟨hfails, hfailed⟩
  · rw [behind, descend, orTry_of_ne (by simp)]
    refine h.found_behind (hallows hopt) hmost.times hmost.spells ?_ (hall _ _) (by simp)
      fun count hlt _ => h.not_accepted_of_most hmost hlt
    have := hleft rfl
    omega
  · -- an occurrence that took all words would have been matched
    have hnone (count : Nat) (hpos : 0 < count) (counts : List Nat) (readings' : List Reading) :
        ¬ Accepted line true [node] token (count :: counts) readings' := by
      intro haccepted
      obtain ⟨_, _, front, behind, hcons, -, hallows', htimes', hspells', hend, -⟩ :=
        cases_of_accepted_node h.isPositional haccepted
      cases hcons
      have hle := hmost.count_le hallows' htimes' hspells'
      have hlength := h.length_le hmost.times hmost.spells hle htimes' hspells'
      have := hend rfl rfl (by omega)
      exact hfails ⟨by omega, by omega⟩
    obtain ⟨progress, after⟩ := found
    obtain rfl : progress = .failed := hfailed
    exact h.found_without (hall memory token) fun count hpos _ => hnone count hpos

/-- The search through the other nodes behind the words that an element takes. -/
def searchBehind (line : Parsed) (last : Bool) (nodes : List Node) (token : Nat) (memory : Memory)
    (readings : List Reading) : Attempt × Memory :=
  descend line.words.length last (nodes.map (slotOf line)) (token + readings.length)
    (memory.withTrail (memory.trail.note token readings []))

/-- The search through the other nodes behind an element that may occur so many times. -/
def searchLimited (line : Parsed) (last : Bool) (node : Node) (nodes : List Node) (token : Nat)
    (memory : Memory) (limit : Nat) : Attempt × Memory :=
  behind memory (descend line.words.length last (nodes.map (slotOf line)))
    ((slotOf line node).process line.words.length token false (some limit) memory)

/-- What the search through the other nodes finds, wherever it begins. -/
def FindsAll (line : Parsed) (last : Bool) (nodes : List Node) : Prop :=
  ∀ token memory, token ≤ line.words.length → Found line last nodes token memory
    (descend line.words.length last (nodes.map (slotOf line)) token memory)

section Others

variable {most : Nat} {readings : List Reading}

theorem FindsAll.found_searchBehind (ih : FindsAll line last nodes)
    (htoken : token ≤ line.words.length) (hspells : Spells line token readings) :
    Found line last nodes (token + readings.length)
      (memory.withTrail (memory.trail.note token readings []))
      (searchBehind line last nodes token memory readings) :=
  ih _ _ (le_length_of_spells hspells htoken)

/-- With a lower limit the search goes on behind as many occurrences. -/
theorem Rigid.exists_searchLimited_eq (h : Rigid line node) (htoken : token ≤ line.words.length)
    (hmost : MostOften line node token most readings) {limit : Nat} (hpos : 0 < limit)
    (hlt : limit < most) :
    ∃ front, Times line.flags node limit front ∧ Spells line token front ∧
      searchLimited line last node nodes token memory limit =
        searchBehind line last nodes token memory front := by
  obtain ⟨front, htimes, hspells, hprocess⟩ := h.process_limit hmost hpos hlt htoken memory
  unfold process at hprocess
  refine ⟨front, htimes, hspells, ?_⟩
  rw [searchLimited, hprocess]
  rfl

/-- If the search is refused with all numbers of occurrences above a bound, nothing with such a
number is accepted. -/
theorem Rigid.not_accepted_above (h : Rigid line node) (htoken : token ≤ line.words.length)
    (ih : FindsAll line last nodes) (hmost : MostOften line node token most readings)
    (hrefused : (searchBehind line last nodes token memory readings).1 = .refused) {bound : Nat}
    (hbefore : ∀ count, bound < count → count ≤ most - 1 →
      (searchLimited line last node nodes token memory count).1 = .refused)
    (count : Nat) (hlt : bound < count) (hsuits : ∀ other ∈ nodes, Suits line.flags other)
    (counts : List Nat) (readings' : List Reading) :
    ¬ Accepted line last (node :: nodes) token (count :: counts) readings' := by
  rcases Nat.lt_trichotomy count most with hbelow | rfl | habove
  · obtain ⟨front, htimes, hspells, heq⟩ :=
      h.exists_searchLimited_eq htoken hmost (Nat.zero_lt_of_lt hlt) hbelow
    have hrefused := hbefore count hlt (Nat.le_sub_one_of_lt hbelow)
    rw [heq] at hrefused
    exact h.not_accepted htimes hspells (ih.found_searchBehind htoken hspells) hrefused hsuits counts
      readings'
  · exact h.not_accepted hmost.times hmost.spells (ih.found_searchBehind htoken hmost.spells)
      hrefused hsuits counts readings'
  · exact h.not_accepted_of_most hmost habove counts readings'

/-- If nothing matches behind the greatest number of occurrences, smaller ones are tried, and in the
end the search goes on without the element. -/
theorem Rigid.found_fewer (h : Rigid line node) (htoken : token ≤ line.words.length)
    (hnotLast : last = true → nodes ≠ []) (ih : FindsAll line last nodes)
    (hmost : MostOften line node token most readings)
    (hrefused : (searchBehind line last nodes token memory readings).1 = .refused) :
    Found line last (node :: nodes) token memory
      (orTry (fewer memory (searchLimited line last node nodes token memory) (most - 1))
        (if node.optional then descend line.words.length last (nodes.map (slotOf line)) token memory
          else (.refused, memory))) := by
  rcases @fewer_first memory (searchLimited line last node nodes token memory) (most - 1) with
    ⟨heq, hnone⟩ | ⟨count, hpos, hle, heq, hmatch, hbefore⟩
  · rw [heq, orTry_of_eq rfl]
    exact h.found_without (ih token memory htoken) (h.not_accepted_above htoken ih hmost hrefused hnone)
  · rw [heq, orTry_of_ne hmatch]
    obtain ⟨front, htimes, hspells, heq⟩ :=
      h.exists_searchLimited_eq htoken hmost hpos (show count < most by omega)
    rw [heq] at hmatch ⊢
    have hallows : Allows node count := ⟨by omega, fun _ => hmost.repeating_of_more (by omega)⟩
    exact h.found_behind hallows htimes hspells (fun hlast hnil => absurd hnil (hnotLast hlast))
      (ih.found_searchBehind htoken hspells) hmatch
      (h.not_accepted_above htoken ih hmost hrefused hbefore)

/-- The search at any other rigid node. Its numbers of occurrences are tried from the greatest
down, and `ih` says what the search through the other nodes finds behind each of them. -/
theorem Rigid.found_node (h : Rigid line node) (htoken : token ≤ line.words.length)
    (hisLast : (last && (nodes.map (slotOf line)).isEmpty) = false)
    (ih : FindsAll line last nodes) :
    Found line last (node :: nodes) token memory
      (descend line.words.length last (slotOf line node :: nodes.map (slotOf line)) token
        memory) := by
  obtain ⟨most, readings, hmost, hcomes⟩ := h.comes htoken false memory
  have hnotLast : last = true → nodes ≠ [] := by
    rintro rfl rfl
    cases hisLast
  unfold process at hcomes
  rw [h.descend_cons]
  simp only [hisLast]
  rcases hcomes with ⟨hopt, -, hreached⟩ | ⟨hfails, hfailed⟩
  · rw [hreached]
    show Found line last (node :: nodes) token memory
      (orTry (searchBehind line last nodes token memory readings)
        (orTry (fewer memory (searchLimited line last node nodes token memory) (most - 1))
          (if node.optional then
            descend line.words.length last (nodes.map (slotOf line)) token memory
          else (.refused, memory))))
    by_cases hrefused : (searchBehind line last nodes token memory readings).1 = .refused
    · rw [orTry_of_eq hrefused]
      exact h.found_fewer htoken hnotLast ih hmost hrefused
    · rw [orTry_of_ne hrefused]
      exact h.found_behind ⟨hopt, hmost.repeating_of_more⟩ hmost.times hmost.spells
        (fun hlast hnil => absurd hnil (hnotLast hlast))
        (ih.found_searchBehind htoken hmost.spells) hrefused
        fun count hlt _ => h.not_accepted_of_most hmost hlt
  · -- the node does not occur, and it may not be left out
    have hmissing : most = 0 := by
      by_cases hzero : most = 0
      · exact hzero
      · exact absurd ⟨fun h0 => absurd h0 hzero, by simp⟩ hfails
    generalize (slotOf line node).process line.words.length token false none memory = found
      at hfailed ⊢
    obtain ⟨progress, after⟩ := found
    obtain rfl : progress = .failed := hfailed
    exact h.found_without (ih token memory htoken)
      fun count hpos _ => h.not_accepted_of_most hmost (hmissing ▸ hpos)

end Others

/-- The search at a flag, which takes no words and is tried once. -/
theorem found_flag {key : Text} (hkey : flagKey? node = some key)
    (htoken : token ≤ line.words.length)
    (ih : ∀ memory, Found line last nodes token memory
      (descend line.words.length last (nodes.map (slotOf line)) token memory)) :
    Found line last (node :: nodes) token memory
      (descend line.words.length last (slotOf line node :: nodes.map (slotOf line)) token
        memory) := by
  have hpositional := positional_of_flagKey? hkey
  have hlast : (last && (nodes.map (slotOf line)).isEmpty) = true ↔ last = true ∧ nodes = [] := by
    simp
  rcases stays_of_flagKey? hkey token (last && (nodes.map (slotOf line)).isEmpty) memory with
    ⟨hsuits, hleft, count, keys, hcount, hadmits, hprocess⟩ | ⟨hfails, hfailed⟩
  · unfold process at hprocess
    rw [descend_flag hkey hprocess hcount, behind]
    have hfound := ih (memory.withTrail (memory.trail.note token [] keys))
    generalize descend line.words.length last (nodes.map (slotOf line)) token
      (memory.withTrail (memory.trail.note token [] keys)) = result at hfound ⊢
    cases hfound with
    | refused hnone =>
      rw [orTry_of_eq rfl]
      refine .refused fun hall counts readings haccepted => ?_
      exact hnone (fun other hother => hall other (by simp [hother])) counts readings
        (cases_of_accepted_flag hpositional haccepted).2
    | upTo hgreatest hwalks hsuits' hkeys =>
      have hadmitted : Walks line token token memory.trail (memory.trail.note token [] keys) []
          keys := ⟨rfl, trivial, rfl⟩
      rw [orTry_of_ne (by simp)]
      refine .upTo ⟨.flag hpositional ?_ hgreatest.accepted, ?_⟩ (hadmitted.trans hwalks) ?_ ?_
      · intro htrue hnil
        have := hleft (hlast.mpr ⟨htrue, hnil⟩)
        omega
      · intro counts' readings' haccepted'
        exact hgreatest.le (cases_of_accepted_flag hpositional haccepted').2
      · intro other hother
        rcases List.mem_cons.mp hother with rfl | hother
        · exact hsuits
        · exact hsuits' other hother
      · intro key'
        rw [List.mem_append, hadmits key', hkeys key', ← and_or_left]
        simp [hkey, eq_comm]
  · unfold process at hfailed
    generalize hfound : (slotOf line node).process line.words.length token
      (last && (nodes.map (slotOf line)).isEmpty) none memory = found at hfailed
    obtain ⟨progress, after⟩ := found
    obtain rfl : progress = .failed := hfailed
    rw [descend_flag hkey hfound (Nat.zero_le _), behind, orTry_of_eq rfl]
    refine .refused fun hall counts readings haccepted => hfails ⟨hall node (by simp), ?_⟩
    intro htrue
    have := (cases_of_accepted_flag hpositional haccepted).1 (hlast.mp htrue).1 (hlast.mp htrue).2
    omega

end Search

/-- **What occurs most often is taken first.** A search through rigid elements and flags takes the
greatest of the assignments that it accepts. -/
theorem found_descend {line : Parsed} {nodes : List Node} (hnodes : ∀ node ∈ nodes, Plain line node)
    (last : Bool) {token : Nat} (htoken : token ≤ line.words.length) (memory : Memory) :
    Found line last nodes token memory
      (descend line.words.length last (nodes.map (slotOf line)) token memory) := by
  induction nodes generalizing token memory with
  | nil =>
    rw [List.map_nil, descend]
    refine .upTo ⟨.nil, ?_⟩ (.refl _ _ _) (by simp) (by simp)
    rintro _ _ ⟨⟩
    exact noGreater_refl _
  | cons node nodes ih =>
    have ih := @ih fun other hother => hnodes other (by simp [hother])
    rw [List.map_cons]
    rcases hnodes node (by simp) with hrigid | ⟨key, hkey⟩
    · cases hisLast : last && (nodes.map (slotOf line)).isEmpty with
      | true =>
        obtain ⟨rfl, rfl⟩ : last = true ∧ nodes = [] := by simpa using hisLast
        exact hrigid.found_last htoken
      | false => exact hrigid.found_node htoken hisLast fun _ memory htoken => ih htoken memory
    · exact found_flag hkey htoken fun memory => ih htoken memory

end Match

end Synopsis
