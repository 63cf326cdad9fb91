/-
Synopsis.Proofs.Match.Eager — what it is to be told to take all words.

The last part of a usage is told to take all words that are left. Being told so makes a
difference only where fewer words would be taken (`heeds_matcher`); but there it does,
since a choice goes on to the next alternative, and a sequence back to its last decision.

In an eager tree (`Node.isEager`) this cannot be. Its sequences decide nothing before their
last child, and no instance of one alternative of a choice begins with an instance of
another one: all have the same number of words (`Node.width?`), or they begin with different
literals (`Node.leadingWord?`). What the tree takes when it is told to take all words it takes
as well when it is not (`eager_of_isEager`).
-/
import Synopsis.Node.Equality
import Synopsis.Proofs.Match.LineEnd
import Synopsis.Proofs.Match.Totality

namespace Synopsis

/-! ## §1 Trees of which an instance does not begin with another -/

namespace Node

/-- The width of a slot, if it takes no word or has to be there once; `width` is that of one
occurrence. -/
def slotWidth? (node : Node) (width : Option Nat) : Option Nat :=
  if node.positional? = some false then some 0 else if node.occ = {} then width else none

mutual

/-- The number of words that an occurrence of the node takes, if it is always the same. -/
def width? : Node → Option Nat
  | .literal _ _ | .parameter _ _ => some 1
  | .flag _ _ | .setting _ _ _ | .empty _ => some 0
  | .sequence _ children => totalWidth? children
  | .choice _ alternatives => commonWidth? alternatives
  | .hole _ => none

def totalWidth? : List Node → Option Nat
  | [] => some 0
  | node :: nodes =>
    match node.slotWidth? node.width?, totalWidth? nodes with
    | some width, some rest => some (width + rest)
    | _, _ => none

def commonWidth? : List Node → Option Nat
  | [] => none
  | node :: nodes =>
    if nodes.isEmpty || commonWidth? nodes == node.slotWidth? node.width? then
      node.slotWidth? node.width?
    else none

end

mutual

/-- The literal that every occurrence of the node begins with. -/
def leadingWord? : Node → Option Text
  | .literal _ name => some name
  | .sequence _ children => leadingWordOfAll? children
  | _ => none

def leadingWordOfAll? : List Node → Option Text
  | [] => none
  | node :: _ => if node.optional then none else node.leadingWord?

end

/-- What the nodes take has the same number of words or begins with different ones. -/
def diverges (node other : Node) : Bool :=
  ((node.slotWidth? node.width?).isSome &&
      node.slotWidth? node.width? == other.slotWidth? other.width?) ||
    ((leadingWordOfAll? [node]).isSome && (leadingWordOfAll? [other]).isSome &&
      leadingWordOfAll? [node] != leadingWordOfAll? [other])

/-- There is nothing to decide about the slot: it takes no word, or it has to be there once. -/
def isFirm (node : Node) : Bool := node.positional? == some false || node.occ == {}

mutual

/-- What the tree takes does not depend on where the words have to end. -/
def isEager : Node → Bool
  | .sequence _ children => isEagerSequence children
  | .choice _ alternatives => isEagerChoice alternatives
  | _ => true

/-- Only the last of the nodes has something to decide. -/
def isEagerSequence : List Node → Bool
  | [] => true
  | node :: nodes => if nodes.isEmpty then node.isEager else node.isFirm && isEagerSequence nodes

/-- None of the nodes takes a part of what a later one takes. -/
def isEagerChoice : List Node → Bool
  | [] => true
  | node :: nodes => node.isEager && nodes.all (diverges node) && isEagerChoice nodes

end

end Node

namespace Match

open Line (Parsed)

/-! ## §2 Words of an occurrence -/

section Words

variable {flags : FlagTable} {node other : Node} {nodes : List Node}
  {readings readings' : List Reading} {keys keys' : List Text}

theorem positional?_of_anyPositional? (h : Node.anyPositional? nodes = some false) :
    ∀ node ∈ nodes, node.positional? = some false := by
  induction nodes with
  | nil => simp
  | cons node nodes ih =>
    rw [Node.anyPositional?] at h
    split at h
    · cases h
    · rename_i hnode
      intro other hother
      rcases List.mem_cons.mp hother with rfl | hother
      · exact hnode
      · exact ih h other hother
    · cases h

theorem eq_nil_of_derives (hpositional : node.positional? = some false)
    (hnode : ∀ {readings keys}, Occurs flags node readings keys → readings = [])
    (h : Derives flags node readings keys) : readings = [] := by
  cases h with
  | once hoccurs => exact hnode hoccurs
  | again _ hpos => rw [Node.positional, hpositional] at hpos; cases hpos
  | absent => rfl

/-- A node that is not positional takes no word. -/
theorem eq_nil_of_occurs (hpositional : node.positional? = some false)
    (h : Occurs flags node readings keys) : readings = [] := by
  induction node using Node.inductionOn generalizing readings keys with
  | literal => cases hpositional
  | parameter => cases hpositional
  | hole => cases hpositional
  | flag => cases h; rfl
  | setting => cases h; rfl
  | empty => cases h; rfl
  | choice occ alternatives ih =>
    cases h with
    | choice hmem hderives =>
      have halternative := positional?_of_anyPositional? hpositional _ hmem
      exact eq_nil_of_derives halternative (ih _ hmem halternative) hderives
  | sequence occ children ih =>
    have hchildren := positional?_of_anyPositional? hpositional
    cases h with
    | sequence hderives =>
      clear hpositional
      induction children generalizing readings keys with
      | nil => cases hderives; rfl
      | cons child children ihc =>
        cases hderives with
        | cons hchild hrest =>
          have hpositional := hchildren child (by simp)
          rw [eq_nil_of_derives hpositional (ih child (by simp) hpositional) hchild,
            ihc (fun other hother => ih other (by simp [hother]))
              (fun other hother => hchildren other (by simp [hother])) hrest]
          rfl

/-- A slot of known width takes so many words, if an occurrence does. -/
theorem length_of_derives {width : Nat}
    (hnode : ∀ {readings keys width}, node.width? = some width → Occurs flags node readings keys →
      readings.length = width)
    (hwidth : node.slotWidth? node.width? = some width) (h : Derives flags node readings keys) :
    readings.length = width := by
  unfold Node.slotWidth? at hwidth
  split at hwidth
  · rename_i hpositional
    cases hwidth
    rw [eq_nil_of_derives hpositional (eq_nil_of_occurs hpositional) h]
    rfl
  · split at hwidth
    · rename_i hocc
      cases h with
      | once hoccurs => exact hnode hwidth hoccurs
      | again hrepeating => rw [Node.repeating, hocc] at hrepeating; cases hrepeating
      | absent hmay => have := hmay.1; rw [Node.optional, hocc] at this; cases this
    · cases hwidth

theorem slotWidth?_of_commonWidth? {width : Nat} (h : Node.commonWidth? nodes = some width) :
    ∀ node ∈ nodes, node.slotWidth? node.width? = some width := by
  induction nodes with
  | nil => simp
  | cons node nodes ih =>
    rw [Node.commonWidth?] at h
    split at h
    · rename_i hrest
      intro other hother
      rcases List.mem_cons.mp hother with rfl | hother
      · exact h
      · rw [Bool.or_eq_true, List.isEmpty_iff, beq_iff_eq] at hrest
        rcases hrest with rfl | hrest
        · cases hother
        · exact ih (hrest.trans h) other hother
    · cases h

/-- An occurrence of a node of known width takes so many words. -/
theorem length_of_occurs {width : Nat} (hwidth : node.width? = some width)
    (h : Occurs flags node readings keys) : readings.length = width := by
  induction node using Node.inductionOn generalizing readings keys width with
  | hole => cases hwidth
  | sequence occ children ih =>
    rw [Node.width?] at hwidth
    cases h with
    | sequence hderives =>
      induction children generalizing readings keys width with
      | nil => cases hderives; cases hwidth; rfl
      | cons child children ihc =>
        cases hderives with
        | cons hchild hrest =>
          rw [Node.totalWidth?] at hwidth
          split at hwidth
          · rename_i first rest hfirst htotal
            cases hwidth
            rw [List.length_append, length_of_derives (ih child (by simp)) hfirst hchild,
              ihc (fun other hother => ih other (by simp [hother])) htotal hrest]
          · cases hwidth
  | choice occ alternatives ih =>
    rw [Node.width?] at hwidth
    cases h with
    | choice hmem hderives =>
      exact length_of_derives (ih _ hmem) (slotWidth?_of_commonWidth? hwidth _ hmem) hderives
  | _ => cases h; cases hwidth; rfl

theorem keyword_of_derives {name : Text}
    (hnode : ∀ {readings keys name}, node.leadingWord? = some name →
      Occurs flags node readings keys → ∃ rest, readings = .keyword name :: rest)
    (hname : Node.leadingWordOfAll? (node :: nodes) = some name)
    (h : Derives flags node readings keys) : ∃ rest, readings = .keyword name :: rest := by
  rw [Node.leadingWordOfAll?] at hname
  split at hname
  · cases hname
  · rename_i hneeded
    cases h with
    | once hoccurs => exact hnode hname hoccurs
    | again _ _ hoccurs =>
      obtain ⟨rest, rfl⟩ := hnode hname hoccurs
      exact ⟨_, rfl⟩
    | absent hmay => exact absurd hmay.1 hneeded

/-- An occurrence of a node that begins with a literal takes the word for it first. -/
theorem keyword_of_occurs {name : Text} (hname : node.leadingWord? = some name)
    (h : Occurs flags node readings keys) : ∃ rest, readings = .keyword name :: rest := by
  induction node using Node.inductionOn generalizing readings keys name with
  | literal occ own => cases h; cases hname; exact ⟨[], rfl⟩
  | sequence occ children ih =>
    rw [Node.leadingWord?] at hname
    cases h with
    | sequence hderives =>
      cases hderives with
      | nil => cases hname
      | cons hchild _ =>
        obtain ⟨rest, rfl⟩ := keyword_of_derives (ih _ (by simp)) hname hchild
        exact ⟨_, rfl⟩
  | _ => cases hname

/-- Nodes that diverge take the same number of words, if both are matched from the same word on. -/
theorem length_eq_of_diverges {line : Parsed} {token : Nat} (hdiverges : node.diverges other = true)
    (h : Derives line.flags node readings keys) (h' : Derives line.flags other readings' keys')
    (hspells : Spells line token readings) (hspells' : Spells line token readings') :
    readings.length = readings'.length := by
  unfold Node.diverges at hdiverges
  simp only [Bool.or_eq_true, Bool.and_eq_true, beq_iff_eq, bne_iff_ne] at hdiverges
  rcases hdiverges with ⟨hsome, heq⟩ | ⟨⟨hsome, hsome'⟩, hne⟩
  · obtain ⟨width, hwidth⟩ := Option.isSome_iff_exists.mp hsome
    rw [length_of_derives length_of_occurs hwidth h,
      length_of_derives length_of_occurs (heq.symm.trans hwidth) h']
  · obtain ⟨name, hname⟩ := Option.isSome_iff_exists.mp hsome
    obtain ⟨name', hname'⟩ := Option.isSome_iff_exists.mp hsome'
    obtain ⟨rest, rfl⟩ := keyword_of_derives keyword_of_occurs hname h
    obtain ⟨rest', rfl⟩ := keyword_of_derives keyword_of_occurs hname' h'
    -- the same word of the line cannot be both literals
    obtain ⟨word, hword, htext⟩ := hspells.1
    obtain ⟨word', hword', htext'⟩ := hspells'.1
    cases hword.symm.trans hword'
    have hsame : name = name' := Option.some.inj (htext.symm.trans htext')
    rw [hname, hname', hsame] at hne
    exact absurd rfl hne

end Words

/-! ## §3 What it is to be told to take all words -/

/-- The results are the same, or the other one takes fewer words than there are. -/
def SameOrLess (total : Nat) (told other : Attempt × Memory) : Prop :=
  told = other ∨ ∃ next, next < total ∧ other.1 = .upTo next

/-- Being told to take all words makes a difference only where fewer would be taken. -/
def Matcher.Heeds (total : Nat) (matcher : Matcher) : Prop :=
  ∀ token memory, SameOrLess total (matcher.attempt token true memory)
    (matcher.attempt token false memory)

section Heeding

variable {total : Nat}

namespace Slot

theorem settle_of_heeds (slot : Slot) (progress : Progress) :
    slot.settle total true progress = slot.settle total false progress ∨
      ∃ next count, next < total ∧ slot.settle total false progress = .reached next count := by
  cases progress with
  | failed => exact .inl rfl
  | fault => exact .inl rfl
  | reached next count =>
    by_cases hmissing : count = 0 ∧ slot.occ.optional = false
    · exact .inl (by rw [settle, settle, if_pos hmissing, if_pos hmissing])
    · have hkept : slot.settle total false (.reached next count) = .reached next count := by
        rw [settle, if_neg hmissing, if_neg (by simp)]
      by_cases hlt : next < total
      · exact .inr ⟨next, count, hlt, hkept⟩
      · exact .inl (by rw [hkept, settle, if_neg hmissing, if_neg fun h => hlt h.2])

theorem once_of_heeds {slot : Slot} (h : slot.Heeds total) (token : Nat) (memory : Memory) :
    slot.once token true memory = slot.once token false memory ∨
      ∃ next, next < total ∧ (slot.once token false memory).1 = .reached next 1 := by
  unfold once
  rcases h token memory with heq | ⟨next, hlt, hless⟩
  · exact .inl (by rw [heq])
  · refine .inr ⟨next, hlt, ?_⟩
    generalize slot.attempt token false memory = found at hless
    obtain ⟨attempt, after⟩ := found
    cases hless
    rfl

theorem process_of_heeds {slot : Slot} (h : slot.Heeds total) (token : Nat)
    (limit : Option Nat) (memory : Memory) :
    slot.process total token true limit memory = slot.process total token false limit memory ∨
      ∃ next count, next < total ∧
        (slot.process total token false limit memory).1 = .reached next count := by
  have hoccurrences : slot.occurrences total token true limit memory =
        slot.occurrences total token false limit memory ∨
      ∃ next, next < total ∧
        (slot.occurrences total token false limit memory).1 = .reached next 1 := by
    unfold occurrences
    split
    · split
      · exact .inl rfl
      · exact .inl rfl
      · exact once_of_heeds h token memory
    · exact once_of_heeds h token memory
  rw [process_eq_occurrences, process_eq_occurrences]
  rcases hoccurrences with heq | ⟨next, hlt, hless⟩
  · rw [heq]
    exact (slot.settle_of_heeds _).imp_left fun h => by rw [h]
  · refine .inr ⟨next, 1, hlt, ?_⟩
    rw [hless, settle, if_neg (by simp), if_neg (by simp)]

end Slot

theorem SameOrLess.orTry {first second first' second' : Attempt × Memory}
    (h : SameOrLess total first first') (h' : SameOrLess total second second') :
    SameOrLess total (orTry first second) (orTry first' second') := by
  rcases h with rfl | ⟨next, hlt, hnext⟩
  · by_cases hrefused : first.1 = .refused
    · rwa [orTry_of_eq hrefused, orTry_of_eq hrefused]
    · exact .inl (by rw [orTry_of_ne hrefused, orTry_of_ne hrefused])
  · exact .inr ⟨next, hlt, by rw [orTry_of_ne (by simp [hnext]), hnext]⟩

theorem SameOrLess.fewer {memory : Memory} {with? with?' : Nat → Attempt × Memory}
    (h : ∀ limit, SameOrLess total (with? limit) (with?' limit)) (limit : Nat) :
    SameOrLess total (fewer memory with? limit) (fewer memory with?' limit) := by
  induction limit with
  | zero => exact .inl rfl
  | succ limit ih => exact (h _).orTry ih

theorem SameOrLess.behind {go go' : Nat → Memory → Attempt × Memory}
    (h : ∀ token memory, SameOrLess total (go token memory) (go' token memory)) (memory : Memory)
    (found : Progress × Memory) :
    SameOrLess total (behind memory go found) (behind memory go' found) := by
  obtain ⟨progress, after⟩ := found
  cases progress with
  | failed => exact .inl rfl
  | fault => exact .inl rfl
  | reached next count => exact h next after

/-- What the last slot takes is all that the sequence takes from there on. -/
theorem behind_last (total : Nat) (last : Bool) (memory : Memory) {found : Progress × Memory}
    {next count : Nat} (h : found.1 = .reached next count) :
    (behind memory (descend total last []) found).1 = .upTo next := by
  obtain ⟨progress, after⟩ := found
  cases h
  rfl

/-- With each limit the last slot comes to the same, or it takes fewer words. -/
theorem descend_last_of_heeds {slot : Slot} (h : slot.Heeds total) (token : Nat) (memory : Memory) :
    SameOrLess total (descend total true [slot] token memory)
      (descend total false [slot] token memory) := by
  have hlimit (limit : Option Nat) : SameOrLess total
      (behind memory (descend total true []) (slot.process total token true limit memory))
      (behind memory (descend total false []) (slot.process total token false limit memory)) := by
    rcases Slot.process_of_heeds h token limit memory with heq | ⟨next, count, hlt, hless⟩
    · rw [heq]
      exact SameOrLess.behind (fun _ _ => .inl rfl) memory _
    · exact .inr ⟨next, hlt, behind_last total false memory hless⟩
  rw [descend, descend]
  cases slot.omissible? with
  | none => exact .inl rfl
  | some leave =>
    simp only [List.isEmpty_nil, Bool.and_true]
    rcases Slot.process_of_heeds h token none memory with heq | ⟨next, count, hlt, hless⟩
    · have hnone := hlimit none
      rw [heq] at hnone ⊢
      refine hnone.orTry (.orTry (.fewer (fun limit => hlimit (some limit)) _) ?_)
      exact .inl (by cases leave <;> rfl)
    · have hfirst := behind_last total false memory hless
      exact .inr ⟨next, hlt, by rw [orTry_of_ne (by simp [hfirst]), hfirst]⟩

/-- Only the last slot of a sequence is told to take all words. -/
theorem descend_of_heeds {slots : List Slot} (h : ∀ slot ∈ slots, slot.Heeds total) (token : Nat)
    (memory : Memory) :
    SameOrLess total (descend total true slots token memory)
      (descend total false slots token memory) := by
  induction slots generalizing token memory with
  | nil => exact .inl rfl
  | cons slot slots ih =>
    have ih := ih fun other hother => h other (by simp [hother])
    cases slots with
    | nil => exact descend_last_of_heeds (h slot (by simp)) token memory
    | cons other slots =>
      rw [descend, descend]
      cases slot.omissible? with
      | none => exact .inl rfl
      | some leave =>
        simp only [List.isEmpty_cons, Bool.and_false]
        refine .orTry (.behind ih memory _) (.orTry (.fewer (fun _ => .behind ih memory _) _) ?_)
        cases leave with
        | false => exact .inl rfl
        | true => exact ih token memory

theorem firstOf_of_heeds {slots : List Slot} (h : ∀ slot ∈ slots, slot.Heeds total) (token : Nat)
    (memory : Memory) :
    SameOrLess total (firstOf total token true memory slots)
      (firstOf total token false memory slots) := by
  induction slots generalizing memory with
  | nil => exact .inl rfl
  | cons slot slots ih =>
    have ih := ih fun other hother => h other (by simp [hother])
    rcases Slot.process_of_heeds (h slot (by simp)) token none memory with
      heq | ⟨next, count, hlt, hless⟩
    · rw [firstOf, firstOf, heq]
      cases slot.process total token false none memory with
      | mk progress after =>
        cases progress with
        | reached => exact .inl rfl
        | fault => exact .inl rfl
        | failed => exact ih _
    · refine .inr ⟨next, hlt, ?_⟩
      rw [firstOf]
      generalize slot.process total token false none memory = found at hless
      obtain ⟨progress, after⟩ := found
      cases hless
      rfl

/-- The induction is on the tree: what a group does with being told so is what its members do. -/
theorem heeds_matcher (line : Parsed) (node : Node) :
    (matcher line node).Heeds line.words.length := by
  induction node using Node.inductionOn with
  | sequence occ children ih =>
    intro token memory
    have h := descend_of_heeds (List.forall_mem_map.mpr ih : ∀ slot ∈ children.map (slotOf line),
      slot.Heeds line.words.length) token memory
    rw [← allOf_eq_descend, ← allOf_eq_descend, ← attempt_sequence line occ,
      ← attempt_sequence line occ] at h
    exact h
  | choice occ alternatives ih =>
    intro token memory
    have h := firstOf_of_heeds (List.forall_mem_map.mpr ih : ∀ slot ∈ alternatives.map (slotOf line),
      slot.Heeds line.words.length) token memory
    rw [← attempt_choice line occ, ← attempt_choice line occ] at h
    exact h
  | _ =>
    intro token memory
    rw [matcher]
    exact .inl rfl

end Heeding

/-! ## §4 Eager trees -/

/-- What the node takes when it is told to take all words it takes as well when it is not. -/
def Eager (line : Parsed) (node : Node) : Prop :=
  ∀ {token next : Nat} {memory after : Memory}, line.words.length ≤ next →
    attempt line node token true memory = (.upTo next, after) →
      attempt line node token false memory = (.upTo next, after)

section EagerTrees

variable {line : Parsed} {node : Node} {nodes : List Node} {token next count : Nat}
  {limit : Option Nat} {memory after : Memory}

theorem process_of_eager (h : Eager line node)
    (hprocess : (slotOf line node).process line.words.length token true limit memory =
      (.reached next count, after)) :
    (slotOf line node).process line.words.length token false limit memory =
      (.reached next count, after) := by
  rw [Slot.process_eq_occurrences] at hprocess ⊢
  obtain ⟨hsettled, hafter⟩ := Prod.mk.inj hprocess
  obtain ⟨hreached, hmissing, hall⟩ := Slot.settle_eq_reached_iff.mp hsettled
  have honce (hreached : ((slotOf line node).once token true memory).1 = .reached next count) :
      (slotOf line node).once token true memory = (slotOf line node).once token false memory := by
    have hattempt : (slotOf line node).attempt token true memory =
        (slotOf line node).attempt token false memory := by
      unfold Slot.once at hreached
      cases hfound : (slotOf line node).attempt token true memory with
      | mk result found =>
        rw [hfound] at hreached
        cases result with
        | upTo middle =>
          cases hreached
          exact (h (hall rfl) hfound).symm
        | refused =>
          -- no word is left to be taken
          cases hreached
          exact hfound.symm.trans (ignoresLast line node token memory (hall rfl))
        | barred => cases hreached
        | fault => cases hreached
    unfold Slot.once
    rw [hattempt]
  have hsame : (slotOf line node).occurrences line.words.length token true limit memory =
      (slotOf line node).occurrences line.words.length token false limit memory := by
    unfold Slot.occurrences at hreached ⊢
    split at hreached
    · rename_i hrepeating
      rw [if_pos hrepeating, if_pos hrepeating]
      split at hreached
      · cases hreached
      · rfl
      · exact honce hreached
    · rename_i hrepeating
      rw [if_neg hrepeating, if_neg hrepeating]
      exact honce hreached
  rw [← hsame, hafter, hreached]
  exact congrArg (·, after) (Slot.settle_eq_reached_iff.mpr ⟨rfl, hmissing, fun h => by cases h⟩)

theorem cases_of_orTry {first second : Attempt × Memory}
    (h : orTry first second = (.upTo next, after)) :
    first = (.upTo next, after) ∨ second = (.upTo next, after) := by
  by_cases hrefused : first.1 = .refused
  · exact .inr (orTry_of_eq hrefused second ▸ h)
  · exact .inl (orTry_of_ne hrefused second ▸ h)

/-- The last slot takes what it takes, or it is left out, which takes no word. -/
theorem descend_single_of_eager (hnode : Eager line node) (hall : line.words.length ≤ next)
    (h : descend line.words.length true [slotOf line node] token memory = (.upTo next, after)) :
    descend line.words.length false [slotOf line node] token memory = (.upTo next, after) := by
  by_cases htoken : line.words.length ≤ token
  · have hignores : ∀ other ∈ [node], IgnoresLast line other := fun other _ => ignoresLast line other
    exact (descend_of_ignoresLast hignores htoken memory).symm.trans h
  · unfold descend at h ⊢
    cases homissible : (slotOf line node).omissible? with
    | none => rw [homissible] at h; cases h
    | some leave =>
      rw [homissible] at h
      simp only [List.isEmpty_nil, Bool.and_true] at h ⊢
      cases hfound : (slotOf line node).process line.words.length token true none memory with
      | mk progress found =>
        rw [hfound] at h
        cases progress with
        | fault => cases h
        | reached middle count =>
          obtain ⟨rfl, rfl⟩ : middle = next ∧ found = after := by
            simpa [orTry, behind, descend] using h
          rw [process_of_eager hnode hfound]
          rfl
        | failed =>
          cases leave with
          | false => cases h
          | true =>
            cases h
            exact absurd hall htoken

/-- At a firm slot there is nothing to go back to. -/
theorem descend_firm (hfirm : node.isFirm = true) (total : Nat) (last : Bool) (slots : List Slot)
    (token : Nat) (memory : Memory) :
    descend total last (slotOf line node :: slots) token memory =
      orTry (behind memory (descend total last slots)
        ((slotOf line node).process total token (last && slots.isEmpty) none memory))
        (.refused, memory) := by
  have hmarks : node.positional? = some false ∨ node.occ = {} := by
    simpa [Node.isFirm] using hfirm
  have honce : (slotOf line node).occ.repeating = true →
      (slotOf line node).positional? = some false :=
    fun h => hmarks.resolve_right fun hocc => by simp [slotOf, hocc] at h
  have homissible : (slotOf line node).omissible? = some false := by
    unfold Slot.omissible?
    split
    · rename_i hoptional
      exact hmarks.resolve_right fun hocc => by simp [slotOf, hocc] at hoptional
    · rfl
  have hcount : ((slotOf line node).process total token (last && slots.isEmpty) none
      memory).1.count ≤ 1 := by
    cases hfound : (slotOf line node).process total token (last && slots.isEmpty) none memory with
    | mk progress found =>
      cases progress with
      | failed => exact Nat.zero_le _
      | fault => exact Nat.zero_le _
      | reached middle count =>
        rcases Slot.cases_of_process hfound with ⟨hrepeating, hpositional, -⟩ | hoccurs
        · cases hpositional.symm.trans (honce hrepeating)
        · exact Slot.count_le_of_once hoccurs
  rw [descend, homissible]
  simp only [Nat.sub_eq_zero_of_le hcount, fewer, Bool.false_eq_true, if_false]
  rfl

/-- The induction is on the children. All but the last have nothing to decide, and they are matched
in the same way however much is to be taken. -/
theorem descend_of_eager (hnodes : ∀ node ∈ nodes, node.isEager = true → Eager line node)
    (heager : Node.isEagerSequence nodes = true) (hall : line.words.length ≤ next)
    (h : descend line.words.length true (nodes.map (slotOf line)) token memory =
      (.upTo next, after)) :
    descend line.words.length false (nodes.map (slotOf line)) token memory = (.upTo next, after) := by
  induction nodes generalizing token memory with
  | nil => exact h
  | cons node nodes ih =>
    have ih := fun token memory =>
      @ih token memory fun other hother => hnodes other (by simp [hother])
    rw [Node.isEagerSequence] at heager
    cases nodes with
    | nil =>
      rw [if_pos (by rfl)] at heager
      exact descend_single_of_eager (hnodes node (by simp) heager) hall h
    | cons other nodes =>
      rw [if_neg (by simp), Bool.and_eq_true] at heager
      rw [List.map_cons, descend_firm heager.1] at h ⊢
      simp only [List.map_cons, List.isEmpty_cons, Bool.and_false] at h ⊢
      cases hfound : (slotOf line node).process line.words.length token false none memory with
      | mk progress found =>
        rw [hfound] at h
        cases progress with
        | fault => cases h
        | failed => cases h
        | reached middle count =>
          rcases cases_of_orTry h with hrest | hnone
          · have hrest := ih middle found heager.2 hrest
            exact (orTry_of_ne (congrArg Prod.fst hrest ▸ by simp) _).trans hrest
          · cases hnone

/-- The induction is on the alternatives. What is taken by one that fails when it is told to take all
words diverges from what a later one takes. -/
theorem firstOf_of_eager (hnodes : ∀ node ∈ nodes, node.isEager = true → Eager line node)
    (heager : Node.isEagerChoice nodes = true) (hall : line.words.length ≤ next)
    (h : firstOf line.words.length token true memory (nodes.map (slotOf line)) =
      (.upTo next, after)) :
    firstOf line.words.length token false memory (nodes.map (slotOf line)) = (.upTo next, after) := by
  induction nodes generalizing memory with
  | nil => cases h
  | cons node nodes ih =>
    simp only [Node.isEagerChoice, Bool.and_eq_true, List.all_eq_true] at heager
    obtain ⟨⟨hnode, hdiverges⟩, hrest⟩ := heager
    have ih := @ih memory (fun other hother => hnodes other (by simp [hother])) hrest
    rw [List.map_cons, firstOf] at h ⊢
    cases hfound : (slotOf line node).process line.words.length token true none memory with
    | mk progress found =>
      rw [hfound] at h
      cases progress with
      | fault => cases h
      | reached middle count =>
        rw [process_of_eager (hnodes node (by simp) hnode) hfound]
        exact h
      | failed =>
        simp only [Slot.cutTo_process (lawful_matcher line node) hfound] at h
        have hheeds : (slotOf line node).Heeds line.words.length := heeds_matcher line node
        rcases Slot.process_of_heeds hheeds token none memory with heq | ⟨middle, count, hlt, hless⟩
        · have hfalse : (slotOf line node).process line.words.length token false none memory =
              (.failed, found) := heq.symm.trans hfound
          simp only [hfalse, Slot.cutTo_process (lawful_matcher line node) hfound]
          exact ih h
        · -- a later alternative takes all words, and this one fewer from the same word on
          obtain ⟨other, hother, readings, keys, hderives, hwalks⟩ :=
            derives_of_firstOf (fun other _ => occurs_of_attempt line other) h
          obtain ⟨readings', keys', hderives', hwalks'⟩ :=
            derives_of_process (occurs_of_attempt line node) (Prod.ext hless rfl)
          have hlength := length_eq_of_diverges (hdiverges other hother) hderives' hderives
            hwalks'.spells hwalks.spells
          have hmiddle := hwalks'.next_eq
          have hnext := hwalks.next_eq
          omega

theorem eager_of_isEager (line : Parsed) {node : Node} (h : node.isEager = true) :
    Eager line node := by
  induction node using Node.inductionOn with
  | sequence occ children ih =>
    intro token next memory after hall hattempt
    rw [attempt_sequence, allOf_eq_descend] at hattempt ⊢
    exact descend_of_eager ih h hall hattempt
  | choice occ alternatives ih =>
    intro token next memory after hall hattempt
    rw [attempt_choice] at hattempt ⊢
    exact firstOf_of_eager ih h hall hattempt
  | _ =>
    intro token next memory after _ hattempt
    rw [attempt, matcher] at hattempt ⊢
    exact hattempt

end EagerTrees

end Match

end Synopsis
