/-
Synopsis.Proofs.Match.Soundness — a line that fits is derived by the tree.

If the matcher finds bindings for a line, the tree derives the line and the bindings
are those of the derivation (`derivesLine_of_parseWindow`): nothing that was recorded
on a way that was given up is left in them. Every node that matches has walked along
the readings of a derivation (`occurs_of_attempt`); for groups this rests on the fact
that matchers which fail leave the trail as it was (`Matcher.Lawful`).
-/
import Synopsis.Proofs.Match.Backtracking
import Synopsis.Proofs.Match.Derivation
import Synopsis.Match.Verdict

namespace Synopsis

namespace Match

open Line (Parsed)

/-! ## §1 Leaves -/

/-- Whenever the node matches once, it has walked along the readings of one occurrence. -/
def FindsOccurrence (line : Parsed) (node : Node) : Prop :=
  ∀ {token next : Nat} {last : Bool} {memory after : Memory},
    attempt line node token last memory = (.upTo next, after) →
      ∃ readings keys, Occurs line.flags node readings keys ∧
        Walks line token next memory.trail after.trail readings keys

theorem walks_of_takeToken {line : Parsed} {key : Text} {passes : Text → Bool} {token next : Nat}
    {trail after : Trail} (h : takeToken line key passes token trail = (.upTo next, after)) :
    ∃ text, passes text = true ∧ ∀ reading : Reading, reading.word = text →
      reading.capture token = (key, some text) →
        Walks line token next trail after [reading] [] := by
  unfold takeToken at h
  split at h
  · cases h
  · rename_i word hword
    split at h
    · cases h
    · rename_i text htext
      split at h
      · rename_i hpasses
        cases h
        refine ⟨text, hpasses, ?_⟩
        intro reading hreading hcapture
        refine ⟨rfl, ⟨⟨word, hword, by rw [hreading]; exact htext⟩, trivial⟩, ?_⟩
        simp [Trail.note, Reading.captures, hcapture, Trail.capture]
      · cases h

theorem walks_of_takeFlag {line : Parsed} {key : Text} {accepts : Option Text → Bool}
    {token next : Nat} {trail after : Trail}
    (h : takeFlag line key accepts token trail = (.upTo next, after)) :
    ∃ given, line.flags.get? key = some given ∧ accepts given = true ∧
      Walks line token next trail after [] [key] := by
  unfold takeFlag at h
  split at h
  · cases h
  · rename_i given hgiven
    split at h
    · rename_i haccepts
      cases h
      refine ⟨given, hgiven, haccepts, rfl, trivial, ?_⟩
      simp [Trail.note, Reading.captures, Trail.allow]
    · cases h

/-- A flag that is refused was not given. -/
theorem get?_of_takeFlag_refused {line : Parsed} {key : Text} {accepts : Option Text → Bool}
    {token : Nat} {trail after : Trail}
    (h : takeFlag line key accepts token trail = (.refused, after)) :
    line.flags.get? key = none := by
  unfold takeFlag at h
  split at h
  · assumption
  · split at h <;> cases h

/-- What a matcher without decisions does, seen from the trail. -/
theorem ofTrail_eq {take : Nat → Trail → Attempt × Trail} {token : Nat} (last : Bool)
    {memory after : Memory} {result : Attempt}
    (h : (Matcher.ofTrail take).attempt token last memory = (result, after)) :
    take token memory.trail = (result, after.trail) := by
  cases h
  rfl

/-! ## §2 Marks -/

theorem flagKey?_eq_none {node : Node} (h : node.positional? = some true) :
    flagKey? node = none := by
  cases node <;> simp_all [Node.positional?, flagKey?]

/-- An optional positional node may be absent. -/
theorem mayBeAbsent_of_positional {flags : FlagTable} {node : Node}
    (hoptional : node.optional = true) (hpositional : node.positional? = some true) :
    MayBeAbsent flags node :=
  ⟨hoptional, by simp [flagKey?_eq_none hpositional]⟩

/-- An optional node that was refused may be absent. -/
theorem mayBeAbsent_of_refused {line : Parsed} {node : Node} {token : Nat} {last : Bool}
    {memory after : Memory} (hoptional : node.optional = true)
    (h : attempt line node token last memory = (.refused, after)) :
    MayBeAbsent line.flags node := by
  refine ⟨hoptional, fun key hkey => ?_⟩
  unfold attempt at h
  cases node with
  | flag occ key' =>
    cases hkey
    rw [matcher] at h
    exact get?_of_takeFlag_refused (ofTrail_eq last h)
  | setting occ key' value =>
    cases hkey
    rw [matcher] at h
    exact get?_of_takeFlag_refused (ofTrail_eq last h)
  | _ => cases hkey

section Marks

variable {line : Parsed} {node : Node}

/-- Matching a node at most once derives it, or it was refused and nothing happened. -/
theorem derives_of_once (hnode : FindsOccurrence line node) {token next count : Nat} {last : Bool}
    {memory after : Memory}
    (h : (slotOf line node).once token last memory = (.reached next count, after)) :
    (0 < count ∧ ∃ readings keys, Derives line.flags node readings keys ∧
      Walks line token next memory.trail after.trail readings keys) ∨
    (count = 0 ∧ next = token ∧ after.trail = memory.trail ∧
      (node.optional = true → MayBeAbsent line.flags node)) := by
  unfold Slot.once at h
  split at h
  · rename_i hattempt
    cases h
    obtain ⟨readings, keys, hoccurs, hwalks⟩ := hnode hattempt
    exact .inl ⟨Nat.one_pos, readings, keys, .once hoccurs, hwalks⟩
  · rename_i hattempt
    cases h
    have htrail := (lawful_matcher line node).trail_eq hattempt (.inl rfl)
    exact .inr ⟨rfl, rfl, htrail, fun hoptional => mayBeAbsent_of_refused hoptional hattempt⟩
  · cases h
  · cases h

/-- Matching a repeating node derives it with all its occurrences, or nothing happened. The
induction is on the rounds, and each round adds one occurrence before the others. -/
theorem derives_of_repeated (hnode : FindsOccurrence line node) (hrepeating : node.repeating = true)
    (hpositional : node.positional? = some true) {rounds token next count : Nat}
    {memory after : Memory}
    (h : (slotOf line node).repeated rounds token memory = (.reached next count, after)) :
    (0 < count ∧ ∃ readings keys, Derives line.flags node readings keys ∧
      Walks line token next memory.trail after.trail readings keys) ∨
    (count = 0 ∧ next = token ∧ after.trail = memory.trail) := by
  induction rounds generalizing token memory next count with
  | zero =>
    cases h
    exact .inr ⟨rfl, rfl, rfl⟩
  | succ rounds ih =>
    have hpos : node.positional = true := by simp [Node.positional, hpositional]
    unfold Slot.repeated at h
    split at h
    · rename_i middle memory' hattempt
      obtain ⟨readings, keys, hoccurs, hwalks⟩ := hnode hattempt
      split at h
      · rename_i hmiddle
        cases h
        rw [hmiddle] at hwalks
        exact .inl ⟨Nat.one_pos, readings, keys, .once hoccurs, hwalks⟩
      · generalize hrest : (slotOf line node).repeated rounds middle memory' = rest at h
        obtain ⟨progress, final⟩ := rest
        cases progress with
        | failed => cases h
        | fault fault => cases h
        | reached next' count' =>
          cases h
          left
          refine ⟨Nat.succ_pos _, ?_⟩
          rcases ih hrest with ⟨-, readings', keys', hderives, hwalks'⟩ | ⟨-, hnext, htrail⟩
          · exact ⟨readings ++ readings', keys ++ keys',
              .again hrepeating hpos hoccurs hderives, hwalks.trans hwalks'⟩
          · rw [hnext, htrail]
            exact ⟨readings, keys, .once hoccurs, hwalks⟩
    · cases h
    · rename_i result found hupTo hfault hattempt
      cases h
      refine .inr ⟨rfl, rfl, (lawful_matcher line node).trail_eq hattempt ?_⟩
      cases result with
      | refused => exact .inl rfl
      | barred => exact .inr rfl
      | upTo next' => exact absurd rfl (hupTo next')
      | fault fault => exact absurd rfl (hfault fault)

/-- A node that was matched with its marks is derived. -/
theorem derives_of_process (hnode : FindsOccurrence line node) {total token next count : Nat}
    {last : Bool} {limit : Option Nat} {memory after : Memory}
    (h : (slotOf line node).process total token last limit memory = (.reached next count, after)) :
    ∃ readings keys, Derives line.flags node readings keys ∧
      Walks line token next memory.trail after.trail readings keys := by
  have hoptional : count = 0 → node.optional = true := (Slot.settled_of_process h).1
  -- without an occurrence the node is absent
  have habsent (hcount : count = 0) (hnext : next = token) (htrail : after.trail = memory.trail)
      (hmay : MayBeAbsent line.flags node) :
      ∃ readings keys, Derives line.flags node readings keys ∧
        Walks line token next memory.trail after.trail readings keys := by
    rw [hnext, htrail]
    exact ⟨[], [], .absent hmay, .refl line token memory.trail⟩
  rcases Slot.cases_of_process h with ⟨hrepeating, hpositional, hrepeated⟩ | honce
  · rcases derives_of_repeated hnode hrepeating hpositional hrepeated with
      ⟨-, hderives⟩ | ⟨hcount, hnext, htrail⟩
    · exact hderives
    · exact habsent hcount hnext htrail (mayBeAbsent_of_positional (hoptional hcount) hpositional)
  · rcases derives_of_once hnode honce with ⟨-, hderives⟩ | ⟨hcount, hnext, htrail, hmay⟩
    · exact hderives
    · exact habsent hcount hnext htrail (hmay (hoptional hcount))

end Marks

/-! ## §3 Groups -/

section Groups

variable {line : Parsed} {nodes : List Node}

/-- Nodes that the recursion matches one after the other are derived one after the other. -/
theorem derivesAll_of_descend (hnodes : ∀ node ∈ nodes, FindsOccurrence line node)
    {total token next : Nat} {last : Bool} {memory after : Memory}
    (h : descend total last (nodes.map (slotOf line)) token memory = (.upTo next, after)) :
    ∃ readings keys, DerivesAll line.flags nodes readings keys ∧
      Walks line token next memory.trail after.trail readings keys := by
  induction nodes generalizing token memory with
  | nil =>
    cases h
    exact ⟨[], [], .nil, .refl _ _ _⟩
  | cons node nodes ih =>
    have ih := @ih fun other hother => hnodes other (by simp [hother])
    rcases cases_of_descend_cons h with
      ⟨isLast, limit, middle, count, found, hprocess, hrest⟩ | ⟨homissible, hrest⟩
    · obtain ⟨readings, keys, hderives, hwalks⟩ :=
        derives_of_process (hnodes node (by simp)) hprocess
      obtain ⟨readings', keys', hderives', hwalks'⟩ := ih hrest
      exact ⟨_, _, .cons hderives hderives', hwalks.trans hwalks'⟩
    · obtain ⟨readings, keys, hderives, hwalks⟩ := ih hrest
      have habsent : MayBeAbsent line.flags node := by
        unfold Slot.omissible? at homissible
        split at homissible
        · rename_i hoptional
          exact mayBeAbsent_of_positional hoptional homissible
        · cases homissible
      exact ⟨readings, keys, .cons (.absent habsent) hderives, hwalks⟩

/-- If one of several nodes is matched, some node among them is derived. What the others before it
recorded has been forgotten. -/
theorem derives_of_firstOf (hnodes : ∀ node ∈ nodes, FindsOccurrence line node)
    {total token next : Nat} {last : Bool} {memory after : Memory}
    (h : firstOf total token last memory (nodes.map (slotOf line)) = (.upTo next, after)) :
    ∃ node ∈ nodes, ∃ readings keys, Derives line.flags node readings keys ∧
      Walks line token next memory.trail after.trail readings keys := by
  induction nodes generalizing memory with
  | nil => cases h
  | cons node nodes ih =>
    have hextends := (slotOf line node).trail_extends_process (lawful_matcher line node) total token
      last none memory
    rw [List.map_cons, firstOf] at h
    split at h
    · rename_i hprocess
      cases h
      exact ⟨node, by simp, derives_of_process (hnodes node (by simp)) hprocess⟩
    · cases h
    · rename_i found hprocess
      rw [hprocess] at hextends
      have ih := ih (fun other hother => hnodes other (by simp [hother])) h
      rw [Memory.trail_cutTo, hextends.cutTo_mark] at ih
      obtain ⟨other, hother, hderives⟩ := ih
      exact ⟨other, by simp [hother], hderives⟩

end Groups

/-- Whenever a node of any kind matches once, it has walked along one occurrence. -/
theorem occurs_of_attempt (line : Parsed) (node : Node) : FindsOccurrence line node := by
  induction node using Node.inductionOn with
  | literal occ name =>
    intro token next last memory after h
    unfold attempt at h
    rw [matcher] at h
    obtain ⟨text, hpasses, hwalks⟩ := walks_of_takeToken (ofTrail_eq last h)
    obtain rfl : text = name := by simpa using hpasses
    exact ⟨_, _, .literal occ text, hwalks (.keyword text) rfl rfl⟩
  | parameter occ name =>
    intro token next last memory after h
    unfold attempt at h
    rw [matcher] at h
    obtain ⟨text, -, hwalks⟩ := walks_of_takeToken (ofTrail_eq last h)
    exact ⟨_, _, .parameter occ name text, hwalks (.value name text) rfl rfl⟩
  | flag occ key =>
    intro token next last memory after h
    unfold attempt at h
    rw [matcher] at h
    obtain ⟨given, hgiven, haccepts, hwalks⟩ := walks_of_takeFlag (ofTrail_eq last h)
    obtain rfl : given = none := by simpa using haccepts
    exact ⟨_, _, .flag hgiven, hwalks⟩
  | setting occ key value _ =>
    intro token next last memory after h
    unfold attempt at h
    rw [matcher] at h
    obtain ⟨given, hgiven, haccepts, hwalks⟩ := walks_of_takeFlag (ofTrail_eq last h)
    exact ⟨_, _, .setting hgiven haccepts, hwalks⟩
  | sequence occ children ih =>
    intro token next last memory after h
    rw [attempt_sequence, allOf_eq_descend] at h
    obtain ⟨readings, keys, hderives, hwalks⟩ := derivesAll_of_descend ih h
    exact ⟨readings, keys, .sequence hderives, hwalks⟩
  | choice occ alternatives ih =>
    intro token next last memory after h
    unfold attempt at h
    rw [matcher, slots_eq_map] at h
    obtain ⟨alternative, hmem, readings, keys, hderives, hwalks⟩ := derives_of_firstOf ih h
    exact ⟨readings, keys, .choice hmem hderives, hwalks⟩
  | empty occ =>
    intro token next last memory after h
    unfold attempt at h
    rw [matcher] at h
    cases h
    exact ⟨[], [], .empty occ, .refl _ _ _⟩
  | hole occ =>
    intro token next last memory after h
    unfold attempt at h
    rw [matcher] at h
    have h := ofTrail_eq last h
    unfold takeHole at h
    split at h <;> cases h

/-! ## §4 Lines -/

theorem map_eq_of_mapM {α β : Type} {f : α → Option β} {as : List α} {bs : List β}
    (h : as.mapM f = some bs) : as.map f = bs.map some := by
  induction as generalizing bs with
  | nil =>
    cases h
    rfl
  | cons a as ih =>
    rw [List.mapM_cons] at h
    obtain ⟨b, hb, h⟩ := Option.bind_eq_some_iff.mp h
    obtain ⟨bs', hbs, h⟩ := Option.bind_eq_some_iff.mp h
    cases h
    rw [List.map_cons, List.map_cons, hb, ih hbs]

/-- Words that are there are words of the line. -/
theorem le_length_of_spells {line : Parsed} {token : Nat} {readings : List Reading}
    (h : Spells line token readings) (htoken : token ≤ line.words.length) :
    token + readings.length ≤ line.words.length := by
  induction readings generalizing token with
  | nil => exact htoken
  | cons reading readings ih =>
    obtain ⟨⟨word, hword, -⟩, hrest⟩ := h
    have hlt : token < line.words.length := (List.getElem?_eq_some_iff.mp hword).1
    have := ih hrest hlt
    rw [List.length_cons]
    omega

/-- A line that is read to its end has the texts that were read. -/
theorem mapM_text_of_spells {line : Parsed} {token : Nat} {readings : List Reading}
    (h : Spells line token readings) (hlength : token + readings.length = line.words.length) :
    (line.words.drop token).mapM Line.Word.text = some (readings.map Reading.word) := by
  induction readings generalizing token with
  | nil =>
    rw [List.drop_of_length_le (by simpa using Nat.le_of_eq hlength.symm)]
    rfl
  | cons reading readings ih =>
    obtain ⟨⟨word, hword, htext⟩, hrest⟩ := h
    obtain ⟨hlt, rfl⟩ := List.getElem?_eq_some_iff.mp hword
    have ih := ih hrest (by rw [List.length_cons] at hlength; omega)
    rw [List.drop_eq_getElem_cons hlt, List.mapM_cons, htext, ih]
    rfl

/-- A line fits if all its flags were admitted. -/
theorem verdictOf_eq_fits_iff {line : Parsed} {trail : Trail} {bindings : Bindings} :
    verdictOf line trail = .fits bindings ↔
      (∀ key ∈ line.flags.keys, key ∈ trail.admitted) ∧
        bindings.captures = trail.captures ++ line.flags := by
  have hadmitted : line.flags.keys.find? (!trail.admitted.contains ·) = none ↔
      ∀ key ∈ line.flags.keys, key ∈ trail.admitted := by
    simp
  obtain ⟨captures⟩ := bindings
  unfold verdictOf
  split
  · rename_i key hfind
    constructor
    · intro h
      cases h
    · rintro ⟨hall, -⟩
      rw [hadmitted.mpr hall] at hfind
      cases hfind
  · rename_i hfind
    have hall := hadmitted.mp hfind
    constructor
    · intro h
      cases h
      exact ⟨hall, rfl⟩
    · rintro ⟨-, rfl⟩
      rfl

theorem bindings?_eq_some_iff {verdict : Verdict} {bindings : Bindings} :
    verdict.bindings? = some bindings ↔ verdict = .fits bindings := by
  cases verdict <;> simp [Verdict.bindings?]

/-- There is a verdict unless the root ends in a fault. -/
theorem exists_judge_eq_ok_iff {tree : Node} {line : Parsed} :
    (∃ verdict, judge tree line = .ok verdict) ↔
      ∀ fault, (process line tree 0 true none {}).1 ≠ .fault fault := by
  unfold judge
  generalize process line tree 0 true none {} = found
  obtain ⟨progress, after⟩ := found
  cases progress <;> simp

/-- What is found about a line that was read is the verdict on it. -/
theorem parse_eq_ok_iff {tree : Node} {source : Text} {line : Parsed}
    (hread : Line.read (.whole source) = .ok line) {found : Option Bindings} :
    parse tree source = .ok found ↔
      ∃ verdict, judge tree line = .ok verdict ∧ verdict.bindings? = found := by
  simp only [parse, parseWindow, hread]
  cases judge tree line with
  | error fault => simp
  | ok verdict => simp

/-- Bindings are found just for the lines that can be read and fit. -/
theorem parseWindow_eq_ok_some_iff {tree : Node} {w : Window} {bindings : Bindings} :
    parseWindow tree w = .ok (some bindings) ↔
      ∃ parsed, Line.read w = .ok parsed ∧ judge tree parsed = .ok (.fits bindings) := by
  unfold parseWindow
  cases Line.read w with
  | error failure => simp
  | ok parsed =>
    simp only [Except.ok.injEq, exists_eq_left']
    cases judge tree parsed with
    | error fault => simp
    | ok verdict => cases verdict <;> simp [Verdict.bindings?]

/-- A line that was read and that fits is derived. -/
theorem derivesLine_of_judge {tree : Node} {line : Parsed} {bindings : Bindings}
    (h : judge tree line = .ok (.fits bindings)) :
    ∃ words, line.texts? = some words ∧ DerivesLine tree words line.flags bindings := by
  unfold judge process at h
  generalize hprocess : (slotOf line tree).process line.words.length 0 true none {} = found at h
  obtain ⟨progress, after⟩ := found
  cases progress with
  | failed => cases h
  | fault fault => cases h
  | reached next count =>
    obtain ⟨readings, keys, hderives, hnext, hspells, htrail⟩ :=
      derives_of_process (fun h => occurs_of_attempt line tree h) hprocess
    have hall : line.words.length ≤ next := (Slot.settled_of_process hprocess).2 rfl
    have hle := le_length_of_spells hspells (Nat.zero_le _)
    have htexts := mapM_text_of_spells hspells (by omega)
    obtain ⟨hkeys, hcaptures⟩ := verdictOf_eq_fits_iff.mp (Except.ok.inj h)
    rw [htrail] at hkeys hcaptures
    refine ⟨readings.map Reading.word, htexts, readings, keys, hderives, rfl, ?_, ?_⟩
    · simpa [Trail.note] using hkeys
    · simpa [Trail.note] using hcaptures

theorem eq_ok_of_toOption {ε α : Type} {result : Except ε α} {a : α}
    (h : result.toOption = some a) : result = .ok a := by
  cases result with
  | error failure => cases h
  | ok found => cases h; rfl

/-- **Soundness.** If the matcher finds bindings for a line, the tree derives the words and the
flags of the line, and what is bound is one capture for each word, in order, and the flags. -/
theorem derivesLine_of_parseWindow {tree : Node} {w : Window} {bindings : Bindings}
    (h : parseWindow tree w = .ok (some bindings)) :
    ∃ parsed words, Line.read w = .ok parsed ∧ parsed.texts? = some words ∧
      DerivesLine tree words parsed.flags bindings := by
  unfold parseWindow at h
  split at h
  · cases h
  · rename_i parsed hread
    split at h
    · cases h
    · rename_i verdict hjudge
      have hverdict : verdict = .fits bindings := by
        cases verdict with
        | fits found => cases h; rfl
        | mismatch => cases h
        | strayFlag key => cases h
      rw [hverdict] at hjudge
      obtain ⟨words, htexts, hderives⟩ := derivesLine_of_judge hjudge
      exact ⟨parsed, words, hread, htexts, hderives⟩

/-- A repeated parameter takes two words, and a flag may stand between them. -/
theorem derivesLine_two_files :
    ∃ parsed words, Line.read (.whole "add a --mode=x b".toList) = .ok parsed ∧
      parsed.texts? = some words ∧
      DerivesLine
        (.sequence {} [.literal {} "add".toList, .parameter ⟨false, true⟩ "file".toList,
          .setting ⟨true, false⟩ "mode".toList (.parameter {} "m".toList)])
        words parsed.flags
        ⟨[("unnamed_0".toList, some "add".toList), ("file".toList, some "a".toList),
          ("file".toList, some "b".toList), ("mode".toList, some "x".toList)]⟩ :=
  derivesLine_of_parseWindow (eq_ok_of_toOption (by decide +kernel))

end Match

end Synopsis
