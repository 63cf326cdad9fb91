/-
Synopsis.Proofs.Match.OneInstance — repetitions of which there is one instance.

A repeating node is not told to take all words, since the next instance may take those that
are left. Its instances are found one after the other, each as if none were to come, and none
is matched in another way once it was found. So a line that fits a usage fits the repetition
of it just if these instances come to the end of the line and admit its flags, which they may
not do: the first instance of `a | a b` in the line `a b` is `a`, and none begins with `b`.

If the first instance takes all words (`TakesAll`), another one behind it cannot take more
than flags (`exists_repeated_of_end`), and the repetition binds the same. This is so if the
usage is eager, and if no instance of it begins the line and stops before its end
(`BeginsShorter`).
-/
import Synopsis.Proofs.Match.Eager
import Synopsis.Proofs.Match.Root
import Synopsis.Proofs.Match.Termination

namespace Synopsis

namespace Match

open Line (Parsed)

/-! ## §1 Instances of a repetition -/

/-- An instance of the tree begins with the first of the words and stops before the last. -/
def BeginsShorter (flags : FlagTable) (tree : Node) (words : List Text) : Prop :=
  ∃ readings keys, Occurs flags tree readings keys ∧ readings.map Reading.word <+: words ∧
    readings.length < words.length

/-- The first instance of a repetition of the tree takes all words, if there are any. -/
def TakesAll (line : Parsed) (tree : Node) : Prop :=
  line.words ≠ [] → ∃ after, attempt line tree 0 false {} = (.upTo line.words.length, after)

/-- The trail has the same captures as the other one, and all flags that were admitted for it. -/
def Trail.Covers (trail earlier : Trail) : Prop :=
  trail.captures = earlier.captures ∧ ∀ key ∈ earlier.admitted, key ∈ trail.admitted

section Repetitions

variable {line : Parsed} {tree : Node} {memory after : Memory} {next : Nat} {bindings : Bindings}

/-- Behind the last word an instance takes nothing, so that only flags are admitted for it. -/
theorem trail_of_attempt_end {token : Nat} (htoken : line.words.length ≤ token)
    (hle : token ≤ line.words.length) {last : Bool}
    (h : attempt line tree token last memory = (.upTo next, after)) :
    next = token ∧ after.trail.Covers memory.trail := by
  obtain ⟨readings, keys, -, hwalks⟩ := occurs_of_attempt line tree h
  have hlength := le_length_of_spells hwalks.spells hle
  obtain rfl : readings = [] := List.length_eq_zero_iff.mp (by omega)
  rw [hwalks.trail_eq]
  exact ⟨hwalks.next_eq, by simp [Trail.note, Reading.captures],
    fun key hkey => by simp [Trail.note, hkey]⟩

/-- A repetition that is at the end of the line stays there. -/
theorem exists_repeated_of_end
    (hfault : ∀ token memory fault, (attempt line tree token false memory).1 ≠ .fault fault)
    (rounds : Nat) (memory : Memory) :
    ∃ count found, (slotOf line tree).repeated rounds line.words.length memory =
      (.reached line.words.length count, found) ∧ found.trail.Covers memory.trail := by
  have hlawful := lawful_matcher line tree
  cases rounds with
  | zero => exact ⟨0, memory, rfl, rfl, fun _ => id⟩
  | succ rounds =>
    have hfault := hfault line.words.length memory
    rw [Slot.repeated]
    cases hattempt : attempt line tree line.words.length false memory with
    | mk result found =>
      have hslot : (slotOf line tree).attempt line.words.length false memory = (result, found) :=
        hattempt
      rw [hattempt] at hfault
      rw [hslot]
      cases result with
      | fault fault => exact absurd rfl (hfault fault)
      | refused =>
        refine ⟨0, found, rfl, ?_⟩
        rw [hlawful.trail_eq hattempt (.inl rfl)]
        exact ⟨rfl, fun _ => id⟩
      | barred =>
        refine ⟨0, found, rfl, ?_⟩
        rw [hlawful.trail_eq hattempt (.inr rfl)]
        exact ⟨rfl, fun _ => id⟩
      | upTo next =>
        obtain ⟨rfl, hcovers⟩ := trail_of_attempt_end (Nat.le_refl _) (Nat.le_refl _) hattempt
        exact ⟨1, found, by simp, hcovers⟩

/-- If the first instance of a repetition takes all words, the repetition ends there. -/
theorem exists_repeated_of_attempt
    (hfault : ∀ token memory fault, (attempt line tree token false memory).1 ≠ .fault fault)
    (h : attempt line tree 0 false memory = (.upTo line.words.length, after)) (rounds : Nat) :
    ∃ count found, (slotOf line tree).repeated (rounds + 1) 0 memory =
      (.reached line.words.length (count + 1), found) ∧ found.trail.Covers after.trail := by
  have hslot : (slotOf line tree).attempt 0 false memory = (.upTo line.words.length, after) := h
  rw [Slot.repeated, hslot]
  simp only
  by_cases hnone : line.words.length = 0
  · rw [if_pos hnone, hnone]
    exact ⟨0, after, rfl, rfl, fun _ => id⟩
  · obtain ⟨count, found, hrepeated, hcovers⟩ := exists_repeated_of_end hfault rounds after
    rw [if_neg hnone, hrepeated]
    exact ⟨count, found, rfl, hcovers⟩

/-- A repetition without an instance has found none at its first word. -/
theorem attempt_of_repeated_zero {rounds : Nat}
    (h : (slotOf line tree).repeated (rounds + 1) 0 memory = (.reached next 0, after)) :
    next = 0 ∧ (attempt line tree 0 false memory = (.refused, after) ∨
      attempt line tree 0 false memory = (.barred, after)) := by
  have hattempt : (slotOf line tree).attempt 0 false memory = attempt line tree 0 false memory := rfl
  rw [Slot.repeated, hattempt] at h
  cases hfound : attempt line tree 0 false memory with
  | mk result found =>
    rw [hfound] at h
    cases result with
    | fault => cases h
    | refused => cases h; exact ⟨rfl, .inl rfl⟩
    | barred => cases h; exact ⟨rfl, .inr rfl⟩
    | upTo middle =>
      simp only at h
      split at h
      · cases h
      · have hprogress := congrArg Prod.fst h
        cases hrest : ((slotOf line tree).repeated rounds middle found).1 <;>
          simp [hrest, Progress.another] at hprogress

theorem Verdict.fits_of_covers {trail trail' : Trail}
    (h : verdictOf line trail = .fits bindings) (hcovers : trail'.Covers trail) :
    verdictOf line trail' = .fits bindings := by
  obtain ⟨hkeys, hcaptures⟩ := verdictOf_eq_fits_iff.mp h
  refine verdictOf_eq_fits_iff.mpr ⟨fun key hkey => hcovers.2 key (hkeys key hkey), ?_⟩
  rw [hcaptures, hcovers.1]

/-! ## §2 Trees and their repetition -/

theorem slotOf_setRepeating (line : Parsed) (hpositional : tree.positional = true) :
    slotOf line (tree.setRepeating true) =
      { slotOf line tree with occ := ⟨tree.optional, true⟩ } :=
  slotOf_withOcc (by cases tree <;> first | rfl | cases hpositional) line _

/-- The repetition of a tree fits just if its instances come to the end of the line. -/
theorem judge_setRepeating_iff (hpositional : tree.positional = true) :
    judge (tree.setRepeating true) line = .ok (.fits bindings) ↔
      ∃ count found, (slotOf line tree).repeated (line.words.length + 1) 0 {} =
        (.reached line.words.length count, found) ∧ (count = 0 → tree.optional = true) ∧
          verdictOf line found.trail = .fits bindings := by
  have hslot := slotOf_setRepeating line hpositional
  have hposition : (slotOf line (tree.setRepeating true)).positional? = some true := by
    rw [hslot]
    simpa [slotOf, Node.positional] using hpositional
  have hocc : (slotOf line (tree.setRepeating true)).occ = ⟨tree.optional, true⟩ := by rw [hslot]
  have hrepeated := Slot.repeated_withOcc (slotOf line tree) ⟨tree.optional, true⟩
    (line.words.length + 1) 0 {}
  rw [← hslot] at hrepeated
  have hprocess := Slot.process_repeating (by rw [hocc]) hposition line.words.length 0 true none {}
  rw [Slot.rounds, Nat.sub_zero, hrepeated] at hprocess
  unfold judge process
  rw [hprocess]
  constructor
  · intro h
    cases hsettle : (slotOf line (tree.setRepeating true)).settle line.words.length true
        ((slotOf line tree).repeated (line.words.length + 1) 0 {}).1 with
    | failed => rw [hsettle] at h; cases h
    | fault => rw [hsettle] at h; cases h
    | reached next count =>
      rw [hsettle] at h hprocess
      obtain ⟨hreached, hmissing, hall⟩ := Slot.settle_eq_reached_iff.mp hsettle
      obtain ⟨readings, keys, -, hwalks⟩ :=
        derives_of_process (occurs_of_attempt line (tree.setRepeating true)) hprocess
      have hle := le_length_of_spells hwalks.spells (Nat.zero_le _)
      have hnext := hwalks.next_eq
      obtain rfl : next = line.words.length := by
        have hall := hall rfl
        omega
      exact ⟨count, _, Prod.ext hreached rfl, by rwa [hocc] at hmissing,
        by simpa using h⟩
  · rintro ⟨count, found, hfound, hmissing, hfits⟩
    rw [hfound, Slot.settle_eq_reached_iff.mpr ⟨rfl, by rwa [hocc], fun _ => Nat.le_refl _⟩]
    exact congrArg Except.ok hfits

/-- A tree that does not repeat fits a line if it takes all words, or if there are none and it may be
left out. -/
theorem cases_of_judge_once (hrepeating : tree.repeating = false)
    (h : judge tree line = .ok (.fits bindings)) :
    ∃ after, verdictOf line after.trail = .fits bindings ∧
      (attempt line tree 0 true {} = (.upTo line.words.length, after) ∨
        (attempt line tree 0 true {} = (.refused, after) ∧ line.words = [] ∧
          tree.optional = true)) := by
  unfold judge process at h
  rw [Slot.process_once fun h => absurd (hrepeating.symm.trans h) (by simp), Slot.once] at h
  have hattempt : (slotOf line tree).attempt 0 true {} = attempt line tree 0 true {} := rfl
  rw [hattempt] at h
  cases hfound : attempt line tree 0 true {} with
  | mk result found =>
    rw [hfound] at h
    cases result with
    | barred => cases h
    | fault => cases h
    | upTo next =>
      by_cases hall : line.words.length ≤ next
      · have hsettle : (slotOf line tree).settle line.words.length true (.reached next 1) =
            .reached next 1 := Slot.settle_eq_reached_iff.mpr ⟨rfl, by simp, fun _ => hall⟩
        simp only [hsettle, Except.ok.injEq] at h
        obtain ⟨readings, keys, -, hwalks⟩ := occurs_of_attempt line tree hfound
        have hle := le_length_of_spells hwalks.spells (Nat.zero_le _)
        have hnext := hwalks.next_eq
        obtain rfl : next = line.words.length := by omega
        exact ⟨found, h, .inl rfl⟩
      · simp only [Slot.settle_eq_failed fun h => hall (h.2 rfl)] at h
        cases h
    | refused =>
      by_cases hsettled : (0 = 0 → (slotOf line tree).occ.optional = true) ∧
          (true = true → line.words.length ≤ 0)
      · simp only [Slot.settle_eq_reached_iff.mpr ⟨rfl, hsettled⟩, Except.ok.injEq] at h
        have hwords := List.length_eq_zero_iff.mp (Nat.le_zero.mp (hsettled.2 rfl))
        exact ⟨found, h, .inr ⟨rfl, hwords, hsettled.1 rfl⟩⟩
      · simp only [Slot.settle_eq_failed hsettled] at h
        cases h

/-- A tree that fits is optional if its repetition comes to the end of the line without an
instance. -/
theorem optional_of_repeated_zero (hrepeating : tree.repeating = false)
    (h : judge tree line = .ok (.fits bindings)) {rounds : Nat}
    (hrepeated : (slotOf line tree).repeated (rounds + 1) 0 {} =
      (.reached line.words.length 0, after)) : tree.optional = true := by
  obtain ⟨hwords, hnone⟩ := attempt_of_repeated_zero hrepeated
  have hsame := ignoresLast line tree 0 {} (Nat.le_of_eq hwords)
  obtain ⟨found, -, hall | ⟨-, -, hoptional⟩⟩ := cases_of_judge_once hrepeating h
  · rw [← hsame, hall] at hnone
    rcases hnone with hrefused | hbarred
    · cases hrefused
    · cases hbarred
  · exact hoptional

/-- If the first instance takes all words, it is the one that the tree finds when it is told to. -/
theorem TakesAll.attempt_eq (hall : TakesAll line tree) :
    attempt line tree 0 false {} = attempt line tree 0 true {} := by
  by_cases hwords : line.words = []
  · exact (ignoresLast line tree 0 {} (by simp [hwords])).symm
  · obtain ⟨after, hattempt⟩ := hall hwords
    rcases heeds_matcher line tree 0 {} with heq | ⟨next, hlt, hless⟩
    · exact heq.symm
    · have hnext : Attempt.upTo line.words.length = .upTo next :=
        (congrArg Prod.fst hattempt).symm.trans hless
      cases hnext
      exact absurd hlt (Nat.lt_irrefl _)

/-- A tree of which the first instance takes all words is found again where it is repeated. -/
theorem TakesAll.judge_setRepeating (hall : TakesAll line tree) (hcomplete : tree.isComplete = true)
    (htexts : ∀ word ∈ line.words, word.text.isSome = true) (hpositional : tree.positional = true)
    (hrepeating : tree.repeating = false) (h : judge tree line = .ok (.fits bindings)) :
    judge (tree.setRepeating true) line = .ok (.fits bindings) := by
  have hfault : ∀ token memory fault, (attempt line tree token false memory).1 ≠ .fault fault :=
    fun token memory => (total_slotOf htexts hcomplete).attempt_ne_fault token false memory
  refine (judge_setRepeating_iff hpositional).mpr ?_
  obtain ⟨after, hfits, hattempt | ⟨hattempt, hwords, hoptional⟩⟩ := cases_of_judge_once hrepeating h
  · obtain ⟨count, found, hrepeated, hcovers⟩ :=
      exists_repeated_of_attempt hfault (hall.attempt_eq.trans hattempt) line.words.length
    exact ⟨count + 1, found, hrepeated, by simp, Verdict.fits_of_covers hfits hcovers⟩
  · have hslot : (slotOf line tree).attempt 0 false {} = (.refused, after) :=
      hall.attempt_eq.trans hattempt
    refine ⟨0, after, ?_, fun _ => hoptional, hfits⟩
    rw [Slot.repeated, hslot, hwords]
    rfl

/-- The first instance of an eager tree that fits takes all words. -/
theorem takesAll_of_isEager (hrepeating : tree.repeating = false) (heager : tree.isEager = true)
    (h : judge tree line = .ok (.fits bindings)) : TakesAll line tree := by
  intro hwords
  obtain ⟨after, -, hattempt | ⟨-, hnone, -⟩⟩ := cases_of_judge_once hrepeating h
  · exact ⟨after, eager_of_isEager line heager (Nat.le_refl _) hattempt⟩
  · exact absurd hnone hwords

/-- If no instance of a tree that fits begins the line and stops before its end, the first one takes
all words. -/
theorem takesAll_of_not_beginsShorter {words : List Text} (htexts : line.texts? = some words)
    (hrepeating : tree.repeating = false) (hwhole : ¬ BeginsShorter line.flags tree words)
    (h : judge tree line = .ok (.fits bindings)) : TakesAll line tree := by
  intro hwords
  obtain ⟨after, -, hattempt | ⟨-, hnone, -⟩⟩ := cases_of_judge_once hrepeating h
  · rcases heeds_matcher line tree 0 {} with heq | ⟨next, hlt, hless⟩
    · exact ⟨after, heq.symm.trans hattempt⟩
    · obtain ⟨readings, keys, hoccurs, hwalks⟩ := occurs_of_attempt line tree (Prod.ext hless rfl)
      have hprefix := (spells_iff_isPrefix htexts).mp hwalks.spells
      rw [List.drop_zero] at hprefix
      have hnext := hwalks.next_eq
      have hlength := length_of_texts? htexts
      exact absurd ⟨readings, keys, hoccurs, hprefix, by omega⟩ hwhole
  · exact absurd hnone hwords

/-! ## §3 Repeated usages -/

/-- **A repetition is at least one instance.** Let a tree that is positional and does not repeat fit a
line. It fits the line when it may be repeated just if its instances, found one after the other and
without regard to the end of the line, come to that end and admit all flags; and what is bound then
is what they captured. If the first of them takes all words, this is what the tree binds itself. It
takes all words if the tree is eager, and if no instance of the tree begins the line and stops before
its end. -/
theorem parse_setRepeating {usage : Text} {committing : Bool} {source : Text} {words : List Text}
    (husage : Usage.compile usage committing = .ok tree) (hpositional : tree.positional = true)
    (hrepeating : tree.repeating = false) (hread : Line.read (.whole source) = .ok line)
    (htexts : line.texts? = some words) (h : parse tree source = .ok (some bindings)) :
    (∀ bindings', parse (tree.setRepeating true) source = .ok (some bindings') ↔
      ∃ count found, (slotOf line tree).Repeats none 0 0 {}
          (.reached line.words.length count, found) ∧
        verdictOf line found.trail = .fits bindings') ∧
    (TakesAll line tree → parse (tree.setRepeating true) source = .ok (some bindings)) ∧
    (tree.isEager = true ∨ ¬ BeginsShorter line.flags tree words → TakesAll line tree) := by
  have hfits (tree : Node) (bindings : Bindings) : parse tree source = .ok (some bindings) ↔
      judge tree line = .ok (.fits bindings) := by
    rw [parse, parseWindow_eq_ok_some_iff, hread]
    simp
  rw [hfits] at h
  have hrepeats := Slot.repeats_repeated (advances_slotOf line tree) none 0 {}
  rw [Slot.rounds, Nat.sub_zero] at hrepeats
  refine ⟨fun bindings' => ?_, fun hall => ?_, ?_⟩
  · rw [hfits, judge_setRepeating_iff hpositional]
    constructor
    · rintro ⟨count, found, hrepeated, -, hverdict⟩
      exact ⟨count, found, hrepeated ▸ hrepeats, hverdict⟩
    · rintro ⟨count, found, hfound, hverdict⟩
      have hrepeated := hfound.unique hrepeats
      refine ⟨count, found, hrepeated, ?_, hverdict⟩
      rintro rfl
      exact optional_of_repeated_zero hrepeating h hrepeated
  · exact (hfits _ _).mpr (hall.judge_setRepeating (Usage.isComplete_of_compile husage)
      (Line.isSome_text_of_read_whole hread) hpositional hrepeating h)
  · rintro (heager | hwhole)
    · exact takesAll_of_isEager hrepeating heager h
    · exact takesAll_of_not_beginsShorter htexts hrepeating hwhole h

/-- Of `add <x> | rm <y> [<z>]` a word for the last place is left to the same instance. So is the
second word of `[a] [b]`, which is not eager and of which `a` is an instance as well. -/
theorem parse_setRepeating_two_commands :
    (let usage := "add <x> | rm <y> [<z>]".toList
    let line := "rm a b".toList
    ∃ tree bindings, Usage.compile usage false = .ok tree ∧ tree.positional = true ∧
      tree.repeating = false ∧ tree.isEager = true ∧ parse tree line = .ok (some bindings) ∧
      parse (tree.setRepeating true) line = .ok (some bindings)) ∧
    let usage := "[a] [b]".toList
    let line := "a b".toList
    ∃ tree bindings, Usage.compile usage false = .ok tree ∧ tree.positional = true ∧
      tree.repeating = false ∧ tree.isEager = false ∧ parse tree line = .ok (some bindings) ∧
      parse (tree.setRepeating true) line = .ok (some bindings) := by
  constructor
  · intro usage line
    let bindings : Bindings := ⟨[("unnamed_0".toList, some "rm".toList),
      ("y".toList, some "a".toList), ("z".toList, some "b".toList)]⟩
    obtain ⟨tree, husage, htree⟩ := Option.map_eq_some_iff.mp
      (show (Usage.compile usage false).toOption.map (fun tree =>
        (tree.positional, tree.repeating, tree.isEager, (parse tree line).toOption)) =
          some (true, false, true, some (some bindings)) by decide +kernel)
    simp only [Prod.mk.injEq] at htree
    obtain ⟨hpositional, hrepeating, heager, hparse⟩ := htree
    have husage := eq_ok_of_toOption husage
    have hparse := eq_ok_of_toOption hparse
    obtain ⟨parsed, hread, -⟩ := parseWindow_eq_ok_some_iff.mp hparse
    obtain ⟨words, htexts⟩ := Line.texts?_of_read_whole hread
    obtain ⟨-, hagain, hall⟩ :=
      parse_setRepeating husage hpositional hrepeating hread htexts hparse
    exact ⟨tree, bindings, husage, hpositional, hrepeating, heager, hparse,
      hagain (hall (.inl heager))⟩
  · intro usage line
    let words : List Line.Word := [⟨0, 1, some "a".toList⟩, ⟨2, 3, some "b".toList⟩]
    let bindings : Bindings := ⟨[("unnamed_0".toList, some "a".toList),
      ("unnamed_1".toList, some "b".toList)]⟩
    obtain ⟨parsed, hparsed, hpair⟩ := Option.map_eq_some_iff.mp
      (show (Line.read (.whole line)).toOption.map (fun parsed => (parsed.words, parsed.flags)) =
        some (words, []) by decide +kernel)
    obtain rfl : parsed = ⟨words, []⟩ :=
      congrArg (fun pair : List Line.Word × FlagTable => (⟨pair.1, pair.2⟩ : Parsed)) hpair
    have hread := eq_ok_of_toOption hparsed
    obtain ⟨tree, husage, htree⟩ := Option.map_eq_some_iff.mp
      (show (Usage.compile usage false).toOption.map (fun tree =>
        ((tree.positional, tree.repeating, tree.isEager), (parse tree line).toOption,
          (attempt ⟨words, []⟩ tree 0 false {}).1)) =
          some ((true, false, false), some (some bindings), .upTo 2) by decide +kernel)
    simp only [Prod.mk.injEq] at htree
    obtain ⟨⟨hpositional, hrepeating, heager⟩, hparse, hfirst⟩ := htree
    have husage := eq_ok_of_toOption husage
    have hparse := eq_ok_of_toOption hparse
    obtain ⟨-, hagain, -⟩ := parse_setRepeating husage hpositional hrepeating hread rfl hparse
    exact ⟨tree, bindings, husage, hpositional, hrepeating, heager, hparse,
      hagain fun _ => ⟨_, Prod.ext hfirst rfl⟩⟩

/-- The line `a b` fits `a | a b`, but not the repetition of it: the first instance is `a`, and none
begins with `b`. -/
theorem not_forall_parse_setRepeating :
    ¬ ∀ (usage : Text) (tree : Node) (source : Text) (bindings : Bindings),
      Usage.compile usage false = .ok tree → tree.positional = true → tree.repeating = false →
        parse tree source = .ok (some bindings) →
          ∃ bindings, parse (tree.setRepeating true) source = .ok (some bindings) := by
  intro h
  let bindings : Bindings := ⟨[("unnamed_0".toList, some "a".toList),
    ("unnamed_1".toList, some "b".toList)]⟩
  obtain ⟨tree, husage, htree⟩ := Option.map_eq_some_iff.mp
    (show (Usage.compile "a | a b".toList false).toOption.map (fun tree =>
      (tree.positional, tree.repeating, (parse tree "a b".toList).toOption,
        (parse (tree.setRepeating true) "a b".toList).toOption)) =
        some (true, false, some (some bindings), some none) by decide +kernel)
  simp only [Prod.mk.injEq] at htree
  obtain ⟨hpositional, hrepeating, hparse, hagain⟩ := htree
  obtain ⟨bindings', hfits⟩ := h _ tree "a b".toList bindings (eq_ok_of_toOption husage) hpositional
    hrepeating (eq_ok_of_toOption hparse)
  have hagain := eq_ok_of_toOption hagain
  cases hagain.symm.trans hfits

end Repetitions

end Match

end Synopsis
