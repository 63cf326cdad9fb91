/-
Synopsis.Proofs.Match.Assignment — how often the nodes of a sequence occur.

An assignment gives each node of a list a number of occurrences that its marks allow
and derives words by letting the nodes occur so often, one after the other
(`Assigns`). Assignments are compared by their numbers, the first nodes counting
most, as lists of numbers are.

A search through a sequence settles for less than an assignment to all words that
are left: it also accepts one after which the last node is missing and words are
left over (`Accepted`). `assigns_of_accepted` and `accepted_of_assigns` say how the
two are related.
-/
import Synopsis.Proofs.Match.Derivation

namespace Synopsis

namespace Match

open Line (Parsed)

/-! ## §1 Numbers of occurrences -/

/-- The node occurs so many times, one occurrence after the other, and uses no flags. -/
inductive Times (flags : FlagTable) (node : Node) : Nat → List Reading → Prop where
  | zero : Times flags node 0 []
  | succ {count : Nat} {readings readings' : List Reading}
    (hoccurs : Occurs flags node readings []) (hrest : Times flags node count readings') :
    Times flags node (count + 1) (readings ++ readings')

/-- The marks of the node allow it to occur so many times. -/
structure Allows (node : Node) (count : Nat) : Prop where
  optional_of_zero : count = 0 → node.optional = true
  repeating_of_more : 1 < count → node.repeating = true

/-- The nodes derive words one after the other, each with so many occurrences. -/
inductive Assigns (flags : FlagTable) : List Node → List Nat → List Reading → Prop where
  | nil : Assigns flags [] [] []
  | cons {node : Node} {nodes : List Node} {count : Nat} {counts : List Nat}
    {readings readings' : List Reading} (hallows : Allows node count)
    (htimes : Times flags node count readings) (hrest : Assigns flags nodes counts readings') :
    Assigns flags (node :: nodes) (count :: counts) (readings ++ readings')

/-- With so many occurrences each, the nodes derive just the given words. -/
def Covers (flags : FlagTable) (nodes : List Node) (words : List Text) (counts : List Nat)
    (readings : List Reading) : Prop :=
  Assigns flags nodes counts readings ∧ readings.map Reading.word = words

/-- The one list of numbers is no greater than the other. The first numbers count most. -/
def NoGreater (counts counts' : List Nat) : Prop :=
  counts = counts' ∨ List.Lex (· < ·) counts counts'

theorem noGreater_refl (counts : List Nat) : NoGreater counts counts := .inl rfl

theorem noGreater_cons_iff {a b : Nat} {as bs : List Nat} :
    NoGreater (a :: as) (b :: bs) ↔ a < b ∨ a = b ∧ NoGreater as bs := by
  rw [NoGreater, List.cons_lex_cons_iff, List.cons.injEq, NoGreater, and_or_left]
  exact or_left_comm

theorem noGreater_antisymm {as bs : List Nat} (h : NoGreater as bs) (h' : NoGreater bs as) :
    as = bs := by
  induction as generalizing bs with
  | nil =>
    rcases h' with rfl | hlex
    · rfl
    · cases hlex
  | cons a as ih =>
    cases bs with
    | nil =>
      rcases h with heq | hlex
      · exact heq
      · cases hlex
    | cons b bs =>
      rw [noGreater_cons_iff] at h h'
      rcases h with hlt | ⟨rfl, h⟩
      · omega
      · rcases h' with hlt | ⟨-, h'⟩
        · omega
        · rw [ih h h']

theorem length_counts_of_assigns {flags : FlagTable} {nodes : List Node} {counts : List Nat}
    {readings : List Reading} (h : Assigns flags nodes counts readings) :
    counts.length = nodes.length := by
  induction h with
  | nil => rfl
  | cons _ _ _ ih => rw [List.length_cons, List.length_cons, ih]

theorem times_one_iff {flags : FlagTable} {node : Node} {readings : List Reading} :
    Times flags node 1 readings ↔ Occurs flags node readings [] := by
  constructor
  · intro h
    cases h with
    | succ hoccurs hrest =>
      cases hrest
      rwa [List.append_nil]
  · intro hoccurs
    have := Times.succ hoccurs .zero
    rwa [List.append_nil] at this

/-- Optional nodes may all be missing. -/
theorem assigns_of_optional (flags : FlagTable) {nodes : List Node}
    (h : ∀ node ∈ nodes, node.optional = true) : Assigns flags nodes (nodes.map fun _ => 0) [] := by
  induction nodes with
  | nil => exact .nil
  | cons node nodes ih =>
    have hallows : Allows node 0 := ⟨fun _ => h node (by simp), by omega⟩
    exact .cons hallows .zero (ih fun other hother => h other (by simp [hother]))

/-- The first occurrences are themselves so many occurrences. -/
theorem Times.take {flags : FlagTable} {node : Node} {count : Nat} {readings : List Reading}
    (h : Times flags node count readings) {fewer : Nat} (hle : fewer ≤ count) :
    ∃ front rest, readings = front ++ rest ∧ Times flags node fewer front ∧
      Times flags node (count - fewer) rest := by
  induction h generalizing fewer with
  | zero =>
    obtain rfl := Nat.le_zero.mp hle
    exact ⟨[], [], rfl, .zero, .zero⟩
  | @succ count readings readings' hoccurs hrest ih =>
    cases fewer with
    | zero => exact ⟨[], readings ++ readings', rfl, .zero, .succ hoccurs hrest⟩
    | succ fewer =>
      obtain ⟨front, rest, rfl, hfront, hbehind⟩ := ih (Nat.le_of_succ_le_succ hle)
      refine ⟨readings ++ front, rest, (List.append_assoc _ _ _).symm, .succ hoccurs hfront, ?_⟩
      rwa [Nat.add_sub_add_right]

/-! ## §2 What a search accepts -/

/-- What a search through the nodes from the given word on accepts. If it is the last part of the
match, a flag at its end wants no words to be left over, and a positional node at its end wants
this too, but only if it occurs. -/
inductive Accepted (line : Parsed) (last : Bool) :
    List Node → Nat → List Nat → List Reading → Prop where
  | nil {token : Nat} : Accepted line last [] token [] []
  | flag {node : Node} {nodes : List Node} {token : Nat} {counts : List Nat}
    {readings : List Reading} (hpositional : node.positional = false)
    (hend : last = true → nodes = [] → token = line.words.length)
    (hrest : Accepted line last nodes token counts readings) :
    Accepted line last (node :: nodes) token counts readings
  | node {node : Node} {nodes : List Node} {token count : Nat} {counts : List Nat}
    {readings readings' : List Reading} (hpositional : node.positional = true)
    (hallows : Allows node count) (htimes : Times line.flags node count readings)
    (hspells : Spells line token readings)
    (hend : last = true → nodes = [] → count ≠ 0 → token + readings.length = line.words.length)
    (hrest : Accepted line last nodes (token + readings.length) counts readings') :
    Accepted line last (node :: nodes) token (count :: counts) (readings ++ readings')

section Accepted

variable {line : Parsed} {last : Bool} {nodes : List Node} {token : Nat} {counts : List Nat}
  {readings : List Reading}

/-- What is accepted of a list that begins with a positional node. -/
theorem cases_of_accepted_node {node : Node} (hpositional : node.positional = true)
    (h : Accepted line last (node :: nodes) token counts readings) :
    ∃ count rest front behind, counts = count :: rest ∧ readings = front ++ behind ∧
      Allows node count ∧ Times line.flags node count front ∧ Spells line token front ∧
      (last = true → nodes = [] → count ≠ 0 → token + front.length = line.words.length) ∧
      Accepted line last nodes (token + front.length) rest behind := by
  cases h with
  | flag hpositional' => rw [hpositional] at hpositional'; cases hpositional'
  | node _ hallows htimes hspells hend hrest =>
    exact ⟨_, _, _, _, rfl, rfl, hallows, htimes, hspells, hend, hrest⟩

/-- What is accepted of a list that begins with another node. -/
theorem cases_of_accepted_flag {node : Node} (hpositional : node.positional = false)
    (h : Accepted line last (node :: nodes) token counts readings) :
    (last = true → nodes = [] → token = line.words.length) ∧
      Accepted line last nodes token counts readings := by
  cases h with
  | flag _ hend hrest => exact ⟨hend, hrest⟩
  | node hpositional' => rw [hpositional] at hpositional'; cases hpositional'

/-- What is accepted is an assignment for the words that follow. -/
theorem assigns_of_accepted (h : Accepted line last nodes token counts readings) :
    Assigns line.flags (nodes.filter Node.positional) counts readings ∧
      Spells line token readings := by
  induction h with
  | nil => exact ⟨.nil, trivial⟩
  | flag hpositional _ _ ih =>
    rw [List.filter_cons_of_neg (by simp [hpositional])]
    exact ih
  | node hpositional hallows htimes hspells _ _ ih =>
    rw [List.filter_cons_of_pos hpositional]
    exact ⟨.cons hallows htimes ih.1, spells_append.mpr ⟨hspells, ih.2⟩⟩

/-- An assignment is accepted if it is for all words that are left, or need not be. -/
theorem accepted_of_assigns
    (h : Assigns line.flags (nodes.filter Node.positional) counts readings)
    (hspells : Spells line token readings)
    (hall : last = true → token + readings.length = line.words.length) :
    Accepted line last nodes token counts readings := by
  induction nodes generalizing token counts readings with
  | nil =>
    cases h
    exact .nil
  | cons node nodes ih =>
    by_cases hpositional : node.positional = true
    · rw [List.filter_cons_of_pos hpositional] at h
      cases h with
      | cons hallows htimes hrest =>
        rw [spells_append] at hspells
        rw [List.length_append, ← Nat.add_assoc] at hall
        refine .node hpositional hallows htimes hspells.1 ?_ (ih hrest hspells.2 hall)
        rintro hlast rfl -
        cases hrest
        simpa using hall hlast
    · rw [List.filter_cons_of_neg hpositional] at h
      refine .flag (by simpa using hpositional) ?_ (ih h hspells hall)
      rintro hlast rfl
      cases h
      simpa using hall hlast

/-- The greatest assignment that a search accepts. -/
structure Greatest (line : Parsed) (last : Bool) (nodes : List Node) (token : Nat)
    (counts : List Nat) (readings : List Reading) : Prop where
  accepted : Accepted line last nodes token counts readings
  le {counts' : List Nat} {readings' : List Reading}
    (h : Accepted line last nodes token counts' readings') : NoGreater counts' counts

end Accepted

end Match

end Synopsis
