/-
Synopsis.Proofs.Match.Rereading — a usage that a tree is written as, and what it matches.

A regular tree finds the same as what is read back of it (`parseWindow_reread`) if the
alternatives of its choices stand apart. A choice that may be left out is refused instead
once its alternatives are read as those of the choice around it. That is a difference to
the alternatives behind it, which are not tried in the one case and are in the other. They
stand apart (`standApart`) if this cannot be seen: because the choice is never refused, or
because they begin with the choice themselves and are refused as well.

Turning the ambiguous sequences of a compiled tree into choices makes both kinds. The first
of the commitments may be a choice that is left out, and the others begin with it. It also
makes trees that are not regular, where a group that has to be there has only optional
members (`isSteady`). These are read back as groups that may be left out.
-/
import Synopsis.Node.Equality
import Synopsis.Proofs.Match.Idling
import Synopsis.Proofs.Match.LineEnd
import Synopsis.Proofs.Usage.Recompiling

namespace Synopsis

open Node (spread rereadAll)
open Usage (rowAlternatives)

namespace Node

/-! ## §1 Alternatives that stand apart -/

/-- One of the alternatives of the choice is an open slot, so the choice is not refused. -/
def offersSlot : Node → Bool
  | .choice _ alternatives => alternatives.any isOpen
  | _ => false

def beginsWith (first : Node) : Node → Bool
  | .sequence occ (child :: _) => decide (occ = {}) && decide (child = first)
  | _ => false

/-- It does not matter that the alternatives of a loose choice are read as alternatives of the
choice around it. Either one of them is an open slot, which ends the choice, or the alternatives
behind the loose choice need what it was refused for. -/
def standApart : List Node → Bool
  | [] => true
  | [_] => true
  | node :: next :: nodes =>
    (!node.isLooseChoice || node.reread.offersSlot ||
      (next :: nodes).all (beginsWith (node.setOptional false))) && standApart (next :: nodes)

mutual

/-- The alternatives of every choice stand apart. -/
def isApart : Node → Bool
  | .sequence _ children => areApart children
  | .choice _ alternatives => areApart alternatives && standApart alternatives
  | _ => true

def areApart : List Node → Bool
  | [] => true
  | node :: nodes => node.isApart && areApart nodes

end

theorem areApart_iff {nodes : List Node} :
    areApart nodes = true ↔ ∀ node ∈ nodes, node.isApart = true := by
  induction nodes with
  | nil => simp [areApart]
  | cons node nodes ih => simp [areApart, ih]

theorem beginsWith_iff {first node : Node} :
    beginsWith first node = true ↔ ∃ children, node = .sequence {} (first :: children) := by
  constructor
  · intro h
    unfold beginsWith at h
    split at h
    · simp only [Bool.and_eq_true, decide_eq_true_eq] at h
      obtain ⟨rfl, rfl⟩ := h
      exact ⟨_, rfl⟩
    · cases h
  · rintro ⟨children, rfl⟩
    simp [beginsWith]

/-- What is read back of a loose choice, and of the choice if it has to be there. -/
theorem exists_reread_looseChoice {node : Node} (h : node.Regular)
    (hloose : node.isLooseChoice = true) :
    ∃ occ alternatives, node.reread = .choice occ alternatives ∧
      (∀ alternative ∈ alternatives, alternative.isEmpty = false) ∧
      ((node.setOptional false).Regular →
        (node.setOptional false).reread = .choice {} alternatives) := by
  cases h with
  | @choice occ alternatives _ halternatives hfilled hoptional =>
    have hspec := fun node h => (halternatives node h).rereadSpec
    refine ⟨occ, _, reread_choice hspec hfilled hoptional, ?_, fun hregular => ?_⟩
    · exact fun node hnode => by simpa using (List.mem_filter.mp hnode).2
    · obtain ⟨hopt, hrepeating⟩ : occ.optional = true ∧ occ.repeating = false := by
        simpa [isLooseChoice] using hloose
      have hocc : (Node.choice occ alternatives).setOptional false = .choice {} alternatives := by
        cases occ
        cases hrepeating
        rfl
      rw [hocc] at hregular ⊢
      cases hregular with
      | choice _ _ _ hnone => exact reread_choice hspec hfilled hnone
  | _ => cases hloose

end Node

namespace Match

open Line (Parsed)

variable {line : Parsed} {token : Nat} {last : Bool} {memory : Memory}

/-- The first of the rows is tried before the others. -/
theorem firstOf_cons (line : Parsed) (node : Node) (nodes : List Node) (token : Nat) (last : Bool)
    (memory : Memory) :
    firstOf line.words.length token last memory ((node :: nodes).map (slotOf line)) =
      orTry (firstOf line.words.length token last memory [slotOf line node])
        (firstOf line.words.length token last memory (nodes.map (slotOf line))) :=
  firstOf_append (lawful_map_slotOf line [node]) _ _ _ _ _

/-- A loose choice that is refused is left out, unless it has to take words that are left. -/
theorem firstOf_looseChoice {occ : Occurrence} {alternatives : List Node}
    (hloose : (Node.choice occ alternatives).isLooseChoice = true) :
    firstOf line.words.length token last memory [slotOf line (.choice occ alternatives)] =
      if (firstOf line.words.length token last memory (alternatives.map (slotOf line))).1 = .refused ∧
          (last = true → line.words.length ≤ token) then (.upTo token, memory)
      else firstOf line.words.length token last memory (alternatives.map (slotOf line)) := by
  obtain ⟨hoptional, hrepeating⟩ : occ.optional = true ∧ occ.repeating = false := by
    simpa [Node.isLooseChoice] using hloose
  have hlawful := lawful_map_slotOf line alternatives
  have hattempt : (slotOf line (.choice occ alternatives)).attempt token last memory =
      firstOf line.words.length token last memory (alternatives.map (slotOf line)) :=
    attempt_choice line occ ..
  have hbarred := firstOf_ne_barred (alternatives.map (slotOf line)) line.words.length token last
    memory
  have honce : (slotOf line (.choice occ alternatives)).occ.repeating = true →
      (slotOf line (.choice occ alternatives)).positional? = some false :=
    fun h => absurd (hrepeating.symm.trans h) Bool.false_ne_true
  rw [firstOf, Slot.process_once honce, Slot.once, hattempt]
  cases hfirst : firstOf line.words.length token last memory (alternatives.map (slotOf line)) with
  | mk result after =>
    cases result with
    | refused =>
      obtain rfl := firstOf_refused hlawful hfirst
      rw [Slot.settle_of_optional hoptional]
      by_cases hlast : last = true → line.words.length ≤ token
      · rw [if_neg fun h => absurd (hlast h.1) (Nat.not_le.mpr h.2), if_pos ⟨rfl, hlast⟩]
      · rw [if_pos (by simpa using hlast), if_neg fun h => hlast h.2]
        simp [firstOf, Memory.cutTo, Memory.withTrail]
    | barred => exact absurd (congrArg Prod.fst hfirst) hbarred
    | upTo next =>
      rw [Slot.settle_of_optional hoptional, if_neg fun h =>
        absurd (le_of_firstOf hfirst h.1) (Nat.not_le.mpr h.2), if_neg (by simp)]
    | fault fault => rw [if_neg (by simp)]; rfl

/-- Slots that fail are refused as the alternatives of a choice. -/
theorem firstOf_of_failed {nodes : List Node}
    (h : ∀ node ∈ nodes,
      ((slotOf line node).process line.words.length token last none memory).1 = .failed) :
    firstOf line.words.length token last memory (nodes.map (slotOf line)) = (.refused, memory) := by
  induction nodes with
  | nil => rfl
  | cons node nodes ih =>
    have ih := ih fun other hother => h other (by simp [hother])
    cases hprocess : (slotOf line node).process line.words.length token last none memory with
    | mk progress after =>
      obtain rfl : progress = .failed := by simpa [hprocess] using h node (by simp)
      rw [List.map_cons, firstOf, hprocess]
      simp only [Slot.cutTo_process (lawful_matcher line node) hprocess, ih]

/-- A node without marks has to be there. -/
theorem process_of_refused {node : Node} (hmarks : node.occ = {})
    (hrefused : (attempt line node token last memory).1 = .refused) (limit : Option Nat) :
    ((slotOf line node).process line.words.length token last limit memory).1 = .failed := by
  rw [Slot.process_once (by simp [slotOf, hmarks]), Slot.once]
  have hattempt : ((slotOf line node).attempt token last memory).1 = .refused := hrefused
  cases hfound : (slotOf line node).attempt token last memory with
  | mk result after =>
    rw [hfound] at hattempt
    cases hattempt
    simp [Slot.settle, slotOf, hmarks]

/-- A sequence is refused if its first child is, which has to be there once. -/
theorem attempt_sequence_of_refused {occ : Occurrence} {first : Node} {children : List Node}
    (hmarks : first.occ = {})
    (hrefused : ∀ isLast, (isLast = true → last = true) →
      (attempt line first token isLast memory).1 = .refused) :
    attempt line (.sequence occ (first :: children)) token last memory = (.refused, memory) := by
  have homissible : (slotOf line first).omissible? = some false := by
    simp [Slot.omissible?, slotOf, hmarks]
  have hprocess (limit : Option Nat) :=
    process_of_refused hmarks (hrefused (last && (children.map (slotOf line)).isEmpty)
      fun h => (Bool.and_eq_true_iff.mp h).1) limit
  have hbehind (limit : Option Nat) (go : Nat → Memory → Attempt × Memory) :
      behind memory go ((slotOf line first).process line.words.length token
        (last && (children.map (slotOf line)).isEmpty) limit memory) = (.refused, memory) := by
    have hprocess := hprocess limit
    generalize (slotOf line first).process line.words.length token
      (last && (children.map (slotOf line)).isEmpty) limit memory = found at hprocess
    obtain ⟨progress, after⟩ := found
    cases hprocess
    rfl
  rw [attempt_sequence, allOf_eq_descend, List.map_cons, descend, homissible]
  simp only [hbehind, hprocess]
  rfl

/-- Sequences that begin with a node that is refused are refused, and so are they when they are
read back. -/
theorem firstOf_of_beginsWith {first : Node} {nodes : List Node}
    (hregular : ∀ node ∈ nodes, node.Regular)
    (hbegins : nodes.all (Node.beginsWith first) = true) (hmarks : first.reread.occ = {})
    (hrefused : ∀ isLast, (isLast = true → last = true) →
      (attempt line first.reread token isLast memory).1 = .refused) :
    firstOf line.words.length token last memory
      (((spread (rereadAll nodes)).filter (!·.isEmpty)).map (slotOf line)) = (.refused, memory) := by
  have hrow :
      ∀ node ∈ rereadAll nodes, ∃ children, node = .sequence {} (first.reread :: children) := by
    refine Node.forall_mem_rereadAll_iff.mpr ?_
    intro node hnode
    obtain ⟨children, rfl⟩ := Node.beginsWith_iff.mp (List.all_eq_true.mp hbegins node hnode)
    cases hregular _ hnode with
    | sequence hlength hchildren _ hoptional =>
      exact ⟨rereadAll children,
        Node.reread_sequence (fun child h => (hchildren child h).rereadSpec) hoptional⟩
  refine firstOf_of_failed ?_
  intro node hnode
  obtain ⟨children, rfl⟩ := Node.forall_mem_spread
    (P := fun node => ∃ children, node = .sequence {} (first.reread :: children))
    (by rintro _ ⟨children, rfl⟩ _ hmem; exact ⟨children, List.mem_singleton.mp hmem⟩)
    hrow node (List.mem_filter.mp hnode).1
  exact process_of_refused rfl (congrArg Prod.fst (attempt_sequence_of_refused hmarks hrefused)) none

/-- Sequences behind a loose choice that begin with the choice are refused if its alternatives are,
whether or not all words have to be taken there. -/
theorem firstOf_behind_looseChoice {first next : Node} {nodes kept : List Node}
    (hregular : ∀ node ∈ next :: nodes, node.Regular)
    (hbegins : (next :: nodes).all (Node.beginsWith first) = true)
    (hfirst : first.Regular → first.reread = .choice {} kept)
    (hlast : last = true → line.words.length ≤ token)
    (hrefused : (firstOf line.words.length token last memory (kept.map (slotOf line))).1 = .refused) :
    firstOf line.words.length token last memory
      (((spread (rereadAll (next :: nodes))).filter (!·.isEmpty)).map (slotOf line)) =
        (.refused, memory) := by
  have hreread : first.reread = .choice {} kept := by
    have hnext := hregular next (by simp)
    obtain ⟨children, rfl⟩ := Node.beginsWith_iff.mp (List.all_eq_true.mp hbegins next (by simp))
    cases hnext with
    | sequence _ hchildren => exact hfirst (hchildren first (by simp))
  refine firstOf_of_beginsWith hregular hbegins (by rw [hreread]; rfl) ?_
  intro isLast hisLast
  rw [hreread, attempt_choice]
  cases last with
  | false =>
    cases isLast with
    | false => exact hrefused
    | true => exact absurd (hisLast rfl) Bool.false_ne_true
  | true =>
    have hkept : ∀ node ∈ kept, IgnoresLast line node := fun node _ => ignoresLast line node
    have hignores := firstOf_of_ignoresLast hkept (hlast rfl) memory
    cases isLast with
    | true => exact hrefused
    | false => rw [← hignores, hrefused]

theorem filter_spread_cons (node next : Node) (nodes : List Node) :
    (spread (rereadAll (node :: next :: nodes))).filter (!·.isEmpty) =
      (rowAlternatives node.reread).filter (!·.isEmpty) ++
        (spread (rereadAll (next :: nodes))).filter (!·.isEmpty) :=
  List.filter_append ..

/-- The first of two rows of alternatives is tried before the second one, also when the rows are
read back. -/
theorem firstOf_filter_spread_cons (line : Parsed) (node next : Node) (nodes : List Node)
    (token : Nat) (last : Bool) (memory : Memory) :
    firstOf line.words.length token last memory
        (((spread (rereadAll (node :: next :: nodes))).filter (!·.isEmpty)).map (slotOf line)) =
      orTry (firstOf line.words.length token last memory
          (((rowAlternatives node.reread).filter (!·.isEmpty)).map (slotOf line)))
        (firstOf line.words.length token last memory
          (((spread (rereadAll (next :: nodes))).filter (!·.isEmpty)).map (slotOf line))) := by
  rw [filter_spread_cons, List.map_append, firstOf_append (lawful_map_slotOf line _)]

theorem SameOrIdle.orTry {first second second' : Attempt × Memory}
    (h : SameOrIdle token memory second second') :
    SameOrIdle token memory (orTry first second) (orTry first second') := by
  by_cases hfirst : first.1 = .refused
  · rwa [orTry_of_eq hfirst, orTry_of_eq hfirst]
  · exact .inl (by rw [orTry_of_ne hfirst, orTry_of_ne hfirst])

/-- What a loose choice that is read back adds to the choice around it are its alternatives. -/
theorem filter_rowAlternatives {occ : Occurrence} {alternatives : List Node}
    (hloose : (Node.choice occ alternatives).isLooseChoice = true)
    (hfilled : ∀ node ∈ alternatives, node.isEmpty = false) :
    (rowAlternatives (.choice occ alternatives)).filter (!·.isEmpty) = alternatives := by
  obtain ⟨hoptional, hrepeating⟩ : occ.optional = true ∧ occ.repeating = false := by
    simpa [Node.isLooseChoice] using hloose
  have hkept : alternatives.filter (!·.isEmpty) = alternatives :=
    List.filter_eq_self.mpr fun node hnode => by simp [hfilled node hnode]
  rw [rowAlternatives, if_neg (by simp [hrepeating]), if_pos hoptional, List.filter_append, hkept]
  exact List.append_nil _

/-- A row that is no loose choice keeps all it adds, and finds what is found with it. -/
theorem firstOf_filter_rowAlternatives {node : Node} (hregular : node.Regular)
    (hfilled : node.isEmpty = false) (htight : node.isLooseChoice = false) :
    firstOf line.words.length token last memory
        (((rowAlternatives node).filter (!·.isEmpty)).map (slotOf line)) =
      firstOf line.words.length token last memory [slotOf line node] := by
  have hkept : (rowAlternatives node).filter (!·.isEmpty) = rowAlternatives node := by
    refine List.filter_eq_self.mpr ?_
    intro alternative hmem
    simp [Node.isEmpty_of_mem_rowAlternatives hregular hfilled htight hmem]
  rw [hkept, firstOf_rowAlternatives line htight]

/-- What is read back of the alternatives of a choice finds what they find, but that it may be
refused where a loose choice among them is left out. -/
theorem sameOrIdle_spread {alternatives : List Node}
    (hregular : ∀ node ∈ alternatives, node.Regular)
    (hfilled : ∀ node ∈ alternatives, node.isEmpty = false)
    (hapart : Node.standApart alternatives = true) :
    SameOrIdle token memory
      (firstOf line.words.length token last memory
        (((spread (rereadAll alternatives)).filter (!·.isEmpty)).map (slotOf line)))
      (firstOf line.words.length token last memory ((rereadAll alternatives).map (slotOf line))) := by
  fun_induction Node.standApart alternatives with
  | case1 => exact .inl rfl
  | case2 only =>
    have hkept : (spread (rereadAll [only])).filter (!·.isEmpty) = rereadAll [only] := by
      simp [rereadAll, spread, hfilled only (by simp)]
    exact .inl (by rw [hkept])
  | case3 node next nodes ih =>
    simp only [Bool.and_eq_true] at hapart
    obtain ⟨hnode, hapart⟩ := hapart
    have ih := ih (fun other hother => hregular other (by simp [hother]))
      (fun other hother => hfilled other (by simp [hother])) hapart
    have hloose' := Node.isLooseChoice_reread (hregular node (by simp))
    have hcons : firstOf line.words.length token last memory
        ((rereadAll (node :: next :: nodes)).map (slotOf line)) = _ :=
      firstOf_cons line node.reread (rereadAll (next :: nodes)) token last memory
    rw [firstOf_filter_spread_cons, hcons]
    cases hloose : node.isLooseChoice with
    | false =>
      rw [firstOf_filter_rowAlternatives (hregular node (by simp)).rereadSpec.regular
        (by simp [hfilled node (by simp)]) (hloose'.trans hloose)]
      exact ih.orTry
    | true =>
      obtain ⟨occ, kept, hreread, hkept, hfill⟩ :=
        Node.exists_reread_looseChoice (hregular node (by simp)) hloose
      rw [hloose, hreread] at hloose'
      rw [hreread]
      rw [filter_rowAlternatives hloose' hkept, firstOf_looseChoice hloose']
      split
      · rename_i hrefused
        obtain ⟨hrefused, hlast⟩ := hrefused
        rw [orTry_of_eq hrefused, orTry_of_ne (by simp)]
        rw [hloose, hreread] at hnode
        simp only [Bool.not_true, Bool.false_or, Bool.or_eq_true] at hnode
        rcases hnode with hopen | hbegins
        · exact absurd hrefused (firstOf_ne_refused (List.any_eq_true.mp hopen) hlast memory)
        · have hbehind := fun other hother => hregular other (List.mem_cons_of_mem node hother)
          exact .inr ⟨firstOf_behind_looseChoice hbehind hbegins hfill hlast hrefused, rfl⟩
      · exact ih.orTry

/-! ## §3 Trees that are read back -/

/-- A choice that has to be there has no alternative that may be left out, so nothing is dropped when
its alternatives are read back. -/
theorem attempt_choice_reread {occ : Occurrence} {alternatives : List Node}
    (hregular : (Node.choice occ alternatives).Regular) (hneeded : occ.optional = false)
    (line : Parsed) (token : Nat) (last : Bool) (memory : Memory) :
    attempt line (Node.choice occ alternatives).reread token last memory =
      firstOf line.words.length token last memory ((rereadAll alternatives).map (slotOf line)) := by
  cases hregular with
  | choice _ halternatives hfilled hoptional =>
    have hspec := fun node h => (halternatives node h).rereadSpec
    have hkept : (spread (rereadAll alternatives)).filter (!·.isEmpty) =
        spread (rereadAll alternatives) := List.filter_eq_self.mpr fun node hnode => by
      cases hempty : node.isEmpty with
      | false => rfl
      | true =>
        have hopt := Node.optional_of_mem_spread hspec hfilled hoptional hnode (by simp [hempty])
        exact absurd (hopt.symm.trans hneeded) (by simp)
    have htight : ∀ node ∈ rereadAll alternatives, node.isLooseChoice = false :=
      Node.forall_mem_rereadAll_iff.mpr fun node hnode => by
        rw [Node.isLooseChoice_reread (halternatives node hnode)]
        cases hloose : node.isLooseChoice with
        | false => rfl
        | true =>
          have hopt := hoptional node hnode (Node.optional_of_isLooseChoice hloose)
          exact absurd (hopt.symm.trans hneeded) (by simp)
    rw [Node.reread_choice hspec hfilled hoptional, attempt_choice, hkept]
    exact firstOf_spread line (fun node h => htight node (List.dropLast_subset _ h)) token last memory

/-- What is read back of a choice resembles it, if what is read back of each alternative does. It may
be refused where the choice is left out, but then the choice is optional. -/
theorem resembles_reread_choice {occ : Occurrence} {alternatives : List Node}
    (hregular : (Node.choice occ alternatives).Regular)
    (hapart : Node.standApart alternatives = true)
    (hmembers : ∀ node ∈ alternatives,
      (slotOf line node.reread).Resembles line.words.length (slotOf line node)) :
    (slotOf line (Node.choice occ alternatives).reread).Resembles line.words.length
      (slotOf line (.choice occ alternatives)) := by
  have hpositional := Node.positional?_reread hregular
  have hfound (token : Nat) (last : Bool) (memory : Memory) :
      firstOf line.words.length token last memory ((rereadAll alternatives).map (slotOf line)) =
        attempt line (.choice occ alternatives) token last memory := by
    rw [attempt_choice, Node.rereadAll_eq_map, List.map_map]
    exact firstOf_congr_of_resembles hmembers token last memory
  cases hregular with
  | choice hlength halternatives hfilled hoptional =>
    have hregular := Node.Regular.choice hlength halternatives hfilled hoptional
    have hreread := Node.reread_choice (fun node h => (halternatives node h).rereadSpec) hfilled
      hoptional
    have hocc : (Node.choice occ alternatives).reread.occ = (Node.choice occ alternatives).occ := by
      rw [hreread]
      rfl
    cases hneeded : occ.optional with
    | false =>
      refine Slot.resembles_of_eq (slotOf_eq hocc hpositional ?_)
      intro token last memory
      rw [attempt_choice_reread hregular hneeded, hfound]
    | true =>
      refine Slot.resembles_of_idles ?_ (by rw [slotOf, hocc]; exact hneeded) hocc hpositional _
      intro token last memory
      show SameOrIdle token memory
        (attempt line (Node.choice occ alternatives).reread token last memory)
        (attempt line (.choice occ alternatives) token last memory)
      rw [← hfound, hreread, attempt_choice]
      exact sameOrIdle_spread halternatives hfilled hapart

/-- What is read back of a regular tree whose alternatives stand apart is matched as the tree is. The
induction is on the tree: a group is matched as its members are, and what is read back of these
resembles them. -/
theorem resembles_reread (line : Parsed) {node : Node} (hregular : node.Regular)
    (hapart : node.isApart = true) :
    (slotOf line node.reread).Resembles line.words.length (slotOf line node) := by
  induction hregular with
  | @setting occ key value hkey hvalue ih =>
    refine Slot.Alike.resembles (Slot.alike_of_floating _ ?_ rfl rfl rfl)
    show matcher line (Node.reread _) = matcher line _
    rw [Node.reread, matcher, matcher, Node.admitsGiven_reread hvalue]
  | @sequence occ children hlength hchildren hfilled hoptional ih =>
    have hpositional := Node.positional?_reread (.sequence hlength hchildren hfilled hoptional)
    have hapart := Node.areApart_iff.mp hapart
    have hreread := Node.reread_sequence (fun child h => (hchildren child h).rereadSpec) hoptional
    refine Slot.resembles_of_eq (slotOf_eq (by rw [hreread]; rfl) hpositional ?_)
    intro token last memory
    rw [hreread, attempt_sequence, attempt_sequence, allOf_eq_descend, allOf_eq_descend,
      Node.rereadAll_eq_map, List.map_map]
    exact congrFun₂ (descend_congr_of_resembles (fun child h => ih child h (hapart child h)) last)
      token memory
  | @choice occ alternatives hlength halternatives hfilled hoptional ih =>
    simp only [Node.isApart, Bool.and_eq_true] at hapart
    have hmembers := Node.areApart_iff.mp hapart.1
    exact resembles_reread_choice (.choice hlength halternatives hfilled hoptional) hapart.2
      fun node h => ih node h (hmembers node h)
  | _ => exact Slot.resembles_of_eq rfl

theorem parseWindow_reread {node : Node} (hregular : node.Regular) (hapart : node.isApart = true)
    (w : Window) : parseWindow node.reread w = parseWindow node w := by
  have hjudge (line : Parsed) : judge node.reread line = judge node line := by
    have hprocess := (resembles_reread line hregular hapart).uncounted_eq 0 true none {}
    unfold judge process
    cases hfound : (slotOf line node.reread).process line.words.length 0 true none {} with
    | mk progress memory =>
      cases hfound' : (slotOf line node).process line.words.length 0 true none {} with
      | mk progress' memory' =>
        rw [hfound, hfound'] at hprocess
        cases progress <;> cases progress' <;> cases hprocess <;> rfl
  simp only [parseWindow, hjudge]

/-! ## §4 Usages that are compiled again -/

/-- **Rendering loses nothing that can be spelled.** The usage that is written for a compiled tree
compiles, if its symbols can be spelled. If in addition the alternatives of every choice stand apart,
then what it compiles to finds the same in every line: the same bindings, or that the line does not
fit, or the same failure. -/
theorem parseWindow_compile_usage {usage : Text} {tree : Node}
    (husage : Usage.compile usage false = .ok tree) (hspelled : tree.isSpelled = true) :
    ∃ again, Usage.compile tree.usage false = .ok again ∧
      (tree.isApart = true → ∀ w, parseWindow again w = parseWindow tree w) := by
  have hregular := Usage.regular_of_parse (Usage.parse_of_compile husage)
  refine ⟨tree.reread, ?_, parseWindow_reread hregular⟩
  rw [Usage.compile, Usage.parse_usage_reread hregular.formed hspelled]
  rfl

/-- A choice between several alternatives, of which one is a choice again, and a value with a
marker. Neither is read back as it was. -/
theorem parseWindow_compile_usage_nested_choice :
    let tree : Node := .sequence {}
      [.choice {} [.literal {} "c".toList, .choice {} [.literal {} "a".toList, .literal {} "b".toList],
        .literal {} "d".toList],
      .setting ⟨true, false⟩ "x".toList (.literal ⟨false, true⟩ "e".toList)]
    Usage.compile "((c | (a | b)) | d) [--x=(e...)]".toList false = .ok tree ∧
      tree.usage = "(c | (a | b) | d) [--x=e...]".toList ∧
      ∃ again, Usage.compile tree.usage false = .ok again ∧
        ∀ w, parseWindow again w = parseWindow tree w := by
  intro tree
  have husage : Usage.compile "((c | (a | b)) | d) [--x=(e...)]".toList false = .ok tree :=
    eq_ok_of_toOption (by decide +kernel)
  obtain ⟨again, hagain, hsame⟩ := parseWindow_compile_usage husage (by decide)
  exact ⟨husage, by decide, again, hagain, hsame (by decide)⟩

/-- A literal that ends in a blank and repeats is written as a usage that does not compile. The
escaped blank stands right before the marker, which is taken to stand on its own. -/
theorem not_forall_parseWindow_compile_usage :
    ¬ ∀ (usage : Text) (tree : Node), Usage.compile usage false = .ok tree →
      ∃ again, Usage.compile tree.usage false = .ok again ∧
        ∀ w, parseWindow again w = parseWindow tree w := by
  intro h
  have husage : Usage.compile "(a\\ )...".toList false =
      .ok (.literal ⟨false, true⟩ "a ".toList) := eq_ok_of_toOption (by decide +kernel)
  obtain ⟨again, hagain, -⟩ := h _ _ husage
  have hfails : (Usage.compile (Node.literal ⟨false, true⟩ "a ".toList).usage false).toOption =
      none := by
    decide +kernel
  rw [hagain] at hfails
  cases hfails

/-- **What is shown describes what is matched.** The usage that is written for a tree whose ambiguous
sequences were turned into choices compiles, if its symbols can be spelled. If in addition no group
is mandatory while its members say that it may be left out, and the alternatives of every choice
stand apart, then what it compiles to finds the same in every line. -/
theorem parseWindow_compile_usage_commit {usage : Text} {tree : Node}
    (husage : Usage.compile usage true = .ok tree) (hspelled : tree.isSpelled = true) :
    Usage.compile tree.usage false = .ok tree.reread ∧
      (tree.isSteady = true → tree.isApart = true →
        ∀ w, parseWindow tree.reread w = parseWindow tree w) := by
  obtain ⟨found, hparse, rfl⟩ := Usage.exists_parse_of_compile husage
  have hformed := (Usage.regular_of_parse hparse).formed_commit
  refine ⟨?_, fun hsteady => parseWindow_reread (hformed.regular hsteady)⟩
  rw [Usage.compile, Usage.parse_usage_reread hformed hspelled]
  rfl

/-- The choice that the first slot is stands among others, where its alternatives are read as
theirs. -/
theorem parseWindow_compile_usage_commit_two_slots :
    let slot (optional : Bool) : Node :=
      .choice ⟨optional, false⟩ [.literal {} "a".toList, .literal {} "b".toList]
    let longer : Node := .sequence {} [slot false, .literal ⟨true, false⟩ "c".toList]
    let tree : Node := .choice ⟨true, false⟩ [slot true, longer]
    let again : Node :=
      .choice ⟨true, false⟩ [.literal {} "a".toList, .literal {} "b".toList, longer]
    Usage.compile "[a | b] [c]".toList true = .ok tree ∧
      tree.usage = "[[a | b] | ((a | b) [c])]".toList ∧
        Usage.compile tree.usage false = .ok again ∧
          ∀ w, parseWindow again w = parseWindow tree w := by
  intro slot longer tree again
  have husage : Usage.compile "[a | b] [c]".toList true = .ok tree :=
    eq_ok_of_toOption (by decide +kernel)
  obtain ⟨hagain, hsame⟩ := parseWindow_compile_usage_commit husage (by decide)
  exact ⟨husage, by decide, hagain, hsame (by decide) (by decide)⟩

/-- A filled group whose members may both be left out is read back as a group that may be left out,
and the line that does without it matches then. -/
theorem not_forall_parseWindow_compile_usage_commit :
    ¬ ∀ (usage : Text) (tree : Node), Usage.compile usage true = .ok tree →
      ∃ again, Usage.compile tree.usage false = .ok again ∧
        ∀ w, parseWindow again w = parseWindow tree w := by
  intro h
  let first (optional : Bool) : Node := .choice ⟨optional, false⟩
    [.literal ⟨true, false⟩ "a".toList,
      .sequence {} [.literal {} "a".toList, .literal ⟨true, false⟩ "b".toList]]
  let second : Node := .sequence ⟨true, false⟩ [.literal {} "a".toList, .literal {} "e".toList]
  let tree : Node := .choice {} [.sequence {} [first true, .literal {} "d".toList],
    .sequence {} [first false, second, .literal {} "d".toList]]
  have husage : Usage.compile "[[a] [b]] [a e] d".toList true = .ok tree :=
    eq_ok_of_toOption (by decide +kernel)
  obtain ⟨again, hagain, hsame⟩ := h _ _ husage
  have hreread : Usage.compile tree.usage false = .ok tree.reread :=
    eq_ok_of_toOption (by decide +kernel)
  obtain rfl : tree.reread = again := Except.ok.inj (hreread.symm.trans hagain)
  have hsame := hsame (.whole "a e d".toList)
  have hnone : (parseWindow tree (.whole "a e d".toList)).toOption = some none := by decide +kernel
  rw [← hsame] at hnone
  have hsome : ((parseWindow tree.reread (.whole "a e d".toList)).toOption.map Option.isSome) =
      some true := by decide +kernel
  rw [hnone] at hsome
  cases hsome

end Match

end Synopsis
