/-
Synopsis.Proofs.Match.OneWord — values of flags and words of a line.

A node describes one word if it is a literal, a parameter or nothing, or a choice between
such nodes that does not repeat. There are two ways to ask whether it describes a text: as
the value of a flag, for which any alternative will do, and as a usage that is matched
against a line, where the first alternative that matches wins and an optional one may
match without a word.

Both give the same answer where the text is the last word of a line that has to be taken
to its end (`EndsWith.takesAdmitted`): what takes no word leaves that word over, so it fails and
the next alternative is tried. So a text other than the empty one is a value of a flag just
if it is matched as the only word of a line (`admits_iff_parseWindow`).
-/
import Synopsis.Proofs.Dispatch.Writing
import Synopsis.Proofs.Match.Root

namespace Synopsis

namespace Node

/-- The node describes one word, which its marks do not change. -/
inductive DescribesWord : Node → Prop where
  | literal (occ : Occurrence) (name : Text) : DescribesWord (.literal occ name)
  | parameter (occ : Occurrence) (name : Text) : DescribesWord (.parameter occ name)
  | empty (occ : Occurrence) : DescribesWord (.empty occ)
  | choice {occ : Occurrence} {alternatives : List Node} (hrepeating : occ.repeating = false)
    (halternatives : ∀ alternative ∈ alternatives, DescribesWord alternative) :
    DescribesWord (.choice occ alternatives)

/-- A choice admits a text just if an alternative does; only for the empty one its marks count. -/
theorem admits_choice {value : Text} (hvalue : value ≠ []) (occ : Occurrence)
    (alternatives : List Node) :
    (Node.choice occ alternatives).admits value = anyAdmits value alternatives := by
  simp [admits, hvalue]

end Node

namespace Match

open Line (Parsed Word)

/-! ## §1 The last word of a line -/

/-- The last word of the line has the given number and text. -/
structure EndsWith (line : Parsed) (token : Nat) (value : Text) : Prop where
  length_eq : line.words.length = token + 1
  exists_word : ∃ word, line.words[token]? = some word ∧ word.text = some value

section LastWord

variable {line : Parsed} {token : Nat} {value : Text}

theorem EndsWith.takeToken_eq (h : EndsWith line token value) (key : Text) (passes : Text → Bool)
    (trail : Trail) :
    takeToken line key passes token trail =
      if passes value then (.upTo (token + 1), trail.capture key value) else (.refused, trail) := by
  obtain ⟨word, hword, htext⟩ := h.exists_word
  simp only [takeToken, hword, htext]

/-- No word comes after the last one. -/
theorem EndsWith.takeToken_behind (h : EndsWith line token value) (key : Text)
    (passes : Text → Bool) (trail : Trail) :
    takeToken line key passes (token + 1) trail = (.refused, trail) := by
  have hnone : line.words[token + 1]? = none := by simp [h.length_eq]
  simp only [takeToken, hnone]

def wordSlot (line : Parsed) (occ : Occurrence) (key : Nat → Text) (passes : Text → Bool) : Slot :=
  ⟨.ofTrail fun token => takeToken line (key token) passes token, occ, some true⟩

/-- A literal or a parameter takes the last word if the word passes, however it is marked. One that
is left out leaves the word over, and one that repeats finds no other. -/
theorem EndsWith.process_wordSlot (h : EndsWith line token value) (occ : Occurrence)
    (key : Nat → Text) (passes : Text → Bool) (memory : Memory) :
    (wordSlot line occ key passes).process line.words.length token true none memory =
      if passes value then
        (.reached (token + 1) 1, memory.withTrail (memory.trail.capture (key token) value))
      else (.failed, memory) := by
  have hattempt (last : Bool) : (wordSlot line occ key passes).attempt token last memory =
      if passes value then
        (.upTo (token + 1), memory.withTrail (memory.trail.capture (key token) value))
      else (.refused, memory) := by
    simp only [wordSlot, Matcher.ofTrail, h.takeToken_eq]
    split <;> rfl
  have hbehind (last : Bool) (memory : Memory) :
      (wordSlot line occ key passes).attempt (token + 1) last memory = (.refused, memory) := by
    simp only [wordSlot, Matcher.ofTrail, h.takeToken_behind]
    rfl
  by_cases hrepeating : occ.repeating = true
  · rw [Slot.process_repeating hrepeating rfl, Slot.rounds, h.length_eq,
      show token + 1 - token + 1 = 2 by omega]
    by_cases hpasses : passes value = true
    · simp [Slot.repeated, hattempt, hbehind, hpasses, Progress.another, Slot.settle]
    · simp [Slot.repeated, hattempt, hpasses, Slot.settle]
  · rw [Slot.process_once fun hcontrary => absurd hcontrary hrepeating, h.length_eq]
    by_cases hpasses : passes value = true
    · simp [Slot.once, hattempt, hpasses, Slot.settle]
    · simp [Slot.once, hattempt, hpasses, Slot.settle]

/-- The node takes the last word if it admits the value, and otherwise fails without a trace. -/
def TakesAdmitted (line : Parsed) (token : Nat) (value : Text) (node : Node) : Prop :=
  ∀ memory,
    (node.admits value = true → ∃ key, process line node token true none memory =
      (.reached (token + 1) 1, memory.withTrail (memory.trail.capture key value))) ∧
    (node.admits value = false → process line node token true none memory = (.failed, memory))

/-- The first of several nodes that admits the value takes the last word. The induction is on the
nodes: those that fail leave nothing behind. -/
theorem firstOf_lastWord {nodes : List Node}
    (h : ∀ node ∈ nodes, TakesAdmitted line token value node) (memory : Memory) :
    (Node.anyAdmits value nodes = true → ∃ key,
      firstOf line.words.length token true memory (nodes.map (slotOf line)) =
        (.upTo (token + 1), memory.withTrail (memory.trail.capture key value))) ∧
    (Node.anyAdmits value nodes = false →
      firstOf line.words.length token true memory (nodes.map (slotOf line)) =
        (.refused, memory)) := by
  induction nodes with
  | nil => exact ⟨fun hadmits => absurd hadmits Bool.false_ne_true, fun _ => rfl⟩
  | cons node nodes ih =>
    have ih := ih fun other hother => h other (by simp [hother])
    obtain ⟨htakes, hfails⟩ := h node (by simp) memory
    rw [List.map_cons, firstOf, Node.anyAdmits]
    cases hadmits : node.admits value with
    | true =>
      obtain ⟨key, hprocess⟩ := htakes hadmits
      rw [process] at hprocess
      exact ⟨fun _ => ⟨key, by rw [hprocess]⟩, fun hcontrary => by cases hcontrary⟩
    | false =>
      have hprocess := hfails hadmits
      rw [process] at hprocess
      rw [hprocess, Bool.false_or]
      have hback : memory.cutTo memory.trail.mark = memory := by
        simp [Memory.cutTo, Memory.withTrail]
      simpa only [hback] using ih

/-- **The last word.** A node that describes one word takes the last word of a line just if it
admits it as the value of a flag. -/
theorem EndsWith.takesAdmitted (h : EndsWith line token value) (hvalue : value ≠ []) {node : Node}
    (hnode : node.DescribesWord) : TakesAdmitted line token value node := by
  induction hnode with
  | literal occ name =>
    intro memory
    have hprocess : process line (.literal occ name) token true none memory = _ :=
      h.process_wordSlot occ unnamedKey (· == name) memory
    have hadmits : (Node.literal occ name).admits value = (value == name) := by
      simp [Node.admits, hvalue, Bool.beq_comm]
    rw [hprocess, hadmits]
    exact ⟨fun hpasses => ⟨_, if_pos hpasses⟩, fun hpasses => if_neg (by simp [hpasses])⟩
  | parameter occ name =>
    intro memory
    have hprocess : process line (.parameter occ name) token true none memory = _ :=
      h.process_wordSlot occ (fun _ => name) (fun _ => true) memory
    exact ⟨fun _ => ⟨name, hprocess⟩, fun hcontrary => by cases hcontrary⟩
  | empty occ =>
    intro memory
    refine ⟨fun hadmits => ?_, fun _ => ?_⟩
    · exact absurd (by simpa [Node.admits] using hadmits) hvalue
    · rw [process, Slot.process_once fun _ => rfl, h.length_eq]
      simp [Slot.once, slotOf, matcher, Matcher.ofTrail, Slot.settle, Memory.withTrail]
  | @choice occ alternatives hrepeating _ ih =>
    intro memory
    obtain ⟨htakes, hfails⟩ := firstOf_lastWord ih memory
    have hattempt : (slotOf line (.choice occ alternatives)).attempt token true memory =
        firstOf line.words.length token true memory (alternatives.map (slotOf line)) := by
      rw [← slots_eq_map]
      rfl
    have honce (h : occ.repeating = true) :
        (slotOf line (.choice occ alternatives)).positional? = some false := by
      cases hrepeating.symm.trans h
    rw [Node.admits_choice hvalue, process, Slot.process_once honce, Slot.once, hattempt]
    refine ⟨fun hadmits => ?_, fun hadmits => ?_⟩
    · obtain ⟨key, hfirst⟩ := htakes hadmits
      exact ⟨key, by rw [hfirst]; simp [h.length_eq, Slot.settle]⟩
    · rw [hfails hadmits]
      simp [h.length_eq, Slot.settle]

end LastWord

/-! ## §2 Lines of one word -/

/-- The part of a line that the window shows is one word with the given text, and no flag. -/
def ShowsWord (w : Window) (value : Text) : Prop :=
  ∃ line, Line.read w = .ok line ∧ line.texts? = some [value] ∧ line.flags = []

/-- Every text is the only word of some line. -/
theorem showsWord_quote (value : Text) : ShowsWord (.whole (Dispatch.quote value)) value := by
  have hitems : ∀ item ∈ [Dispatch.Item.word value], item.Writable := by
    intro item hitem
    rw [List.mem_singleton.mp hitem]
    trivial
  exact Dispatch.read_spaced hitems

theorem endsWith_of_texts? {line : Parsed} {value : Text} (h : line.texts? = some [value]) :
    EndsWith line 0 value :=
  ⟨(length_of_texts? h).symm, (getElem?_eq_some_iff_of_texts? h).mp rfl⟩

/-- **Values.** Let a node describe one word, and let a text be given that is not empty. Then the
node admits the text as the value of a flag just if the node, taken as a usage, matches the text as
the only word of a line, wherever that is written; what is bound is then the text, once. A node that
does not admit the text does not match this line. -/
theorem admits_iff_parseWindow {node : Node} (hnode : node.DescribesWord) {value : Text}
    (hvalue : value ≠ []) :
    (∃ line, ShowsWord (.whole line) value) ∧ ∀ w, ShowsWord w value →
      (node.admits value = true ↔ ∃ bindings, parseWindow node w = .ok (some bindings)) ∧
      (node.admits value = true → ∃ key, parseWindow node w = .ok (some ⟨[(key, some value)]⟩)) ∧
      (node.admits value = false → parseWindow node w = .ok none) := by
  refine ⟨⟨_, showsWord_quote value⟩, ?_⟩
  rintro w ⟨line, hread, htexts, hflags⟩
  obtain ⟨htakes, hfails⟩ := (endsWith_of_texts? htexts).takesAdmitted hvalue hnode {}
  have hfits (hadmits : node.admits value = true) :
      ∃ key, parseWindow node w = .ok (some ⟨[(key, some value)]⟩) := by
    obtain ⟨key, hprocess⟩ := htakes hadmits
    exact ⟨key, by simp [parseWindow, hread, judge, hprocess, verdictOf, hflags, FlagTable.keys,
      Verdict.bindings?, Trail.capture]⟩
  have hmismatch (hadmits : node.admits value = false) : parseWindow node w = .ok none := by
    simp [parseWindow, hread, judge, hfails hadmits, Verdict.bindings?]
  refine ⟨⟨fun hadmits => ?_, ?_⟩, hfits, hmismatch⟩
  · obtain ⟨key, hparse⟩ := hfits hadmits
    exact ⟨_, hparse⟩
  · rintro ⟨bindings, hparse⟩
    by_contra hadmits
    rw [hmismatch (by simpa using hadmits)] at hparse
    cases hparse

/-- Optional alternatives, one of them nothing, before the one that admits the text. -/
theorem admits_iff_parseWindow_off :
    let node : Node := .choice ⟨true, false⟩
      [.literal ⟨true, false⟩ "on".toList,
        .choice {} [.empty {}, .literal ⟨true, true⟩ "off".toList]]
    (∃ key, parseWindow node (.whole "off".toList) = .ok (some ⟨[(key, some "off".toList)]⟩)) ∧
      parseWindow node (.whole "auto".toList) = .ok none := by
  intro node
  have hnode : node.DescribesWord := by
    refine .choice rfl ?_
    simpa using ⟨.literal _ _, .choice rfl (by simpa using ⟨.empty _, .literal _ _⟩)⟩
  have hoffNe : "off".toList ≠ [] := by decide
  have hautoNe : "auto".toList ≠ [] := by decide
  obtain ⟨-, hoff⟩ := admits_iff_parseWindow hnode hoffNe
  obtain ⟨-, hauto⟩ := admits_iff_parseWindow hnode hautoNe
  exact ⟨(hoff _ (showsWord_quote "off".toList)).2.1 (by decide),
    (hauto _ (showsWord_quote "auto".toList)).2.2 (by decide)⟩

end Match

end Synopsis
