/-
Synopsis.Proofs.Dispatch.Interleaving — flags may stand anywhere among the arguments.

Two argument vectors with the same words and the same flags, both in the same order, find
the same whatever flags stand between which words. If no key is given twice, the flags may
be in another order too: the vectors fit both or neither, and their words are captured in
the same way (`parse_interleaved`).

The lines of such vectors agree: their words have the same texts, and under each key the
same is found (`exists_agrees_of_filter_eq`). What the matcher does with lines that agree
is known (`Match.parse_of_agrees`).
-/
import Synopsis.Dispatch.CommandLine
import Synopsis.Proofs.Dispatch.Joining
import Synopsis.Proofs.Match.Agreement
import Synopsis.Proofs.Match.Totality

namespace Synopsis

namespace Dispatch

open Match (Reading bindingsOf)

section Vectors

variable {argv argv' : List Text}

/-! ## §1 Lines of vectors with the same words -/

theorem flagsOfArguments_of_perm
    (h : (argv.filter isFlagArgument).Perm (argv'.filter isFlagArgument)) :
    (flagsOfArguments argv).Perm (flagsOfArguments argv') :=
  h.map _

theorem keys_flagsOfArguments (argv : List Text) :
    FlagTable.keys (flagsOfArguments argv) = (argv.filter isFlagArgument).map argumentKey := by
  simp [FlagTable.keys, flagsOfArguments, Function.comp_def]

/-- Vectors with the same words and in whose tables the same is found make lines that agree. -/
theorem exists_agrees_of_filter_eq
    (hkeys : ∀ argument ∈ argv, isFlagArgument argument = true → HasKey argument)
    (hkeys' : ∀ argument ∈ argv', isFlagArgument argument = true → HasKey argument)
    (hwords : argv.filter (!isFlagArgument ·) = argv'.filter (!isFlagArgument ·))
    (hflags : ∀ key, (FlagTable.ofList (flagsOfArguments argv)).get? key =
      (FlagTable.ofList (flagsOfArguments argv')).get? key) :
    ∃ line line', Line.read (.whole (joinArguments argv)) = .ok line ∧
      Line.read (.whole (joinArguments argv')) = .ok line' ∧
      line.texts? = some (argv.filter (!isFlagArgument ·)) ∧
      line.flags = .ofList (flagsOfArguments argv) ∧
      line'.flags = .ofList (flagsOfArguments argv') ∧ Match.Agrees line line' := by
  obtain ⟨line, hread, htexts, htable⟩ := exists_read_joinArguments hkeys
  obtain ⟨line', hread', htexts', htable'⟩ := exists_read_joinArguments hkeys'
  have hagrees : Match.Agrees line line' :=
    Match.agrees_of_texts htexts (hwords ▸ htexts') fun key => by rw [htable, htable', hflags]
  exact ⟨line, line', hread, hread', htexts, htable, htable', hagrees⟩

/-! ## §2 What is found in them -/

variable {H : Type} (commandLine : CommandLine H)

/-- The flags may be moved between the words. -/
theorem parse_eq_of_filter_eq
    (hkeys : ∀ argument ∈ argv, isFlagArgument argument = true → HasKey argument)
    (hkeys' : ∀ argument ∈ argv', isFlagArgument argument = true → HasKey argument)
    (hwords : argv.filter (!isFlagArgument ·) = argv'.filter (!isFlagArgument ·))
    (hflags : argv.filter isFlagArgument = argv'.filter isFlagArgument) :
    commandLine.parse argv = commandLine.parse argv' := by
  have hsame : flagsOfArguments argv = flagsOfArguments argv' := congrArg (List.map _) hflags
  obtain ⟨line, line', hread, hread', -, htable, htable', hagrees⟩ :=
    exists_agrees_of_filter_eq hkeys hkeys' hwords fun key => by rw [hsame]
  have htables : line.flags = line'.flags := by rw [htable, htable', hsame]
  exact Match.parse_eq_of_agrees hagrees htables hread hread' commandLine.grammar

/-- The flags may be moved between the words and among themselves if no key is given twice. -/
theorem parse_of_perm
    (hkeys : ∀ argument ∈ argv, isFlagArgument argument = true → HasKey argument)
    (hkeys' : ∀ argument ∈ argv', isFlagArgument argument = true → HasKey argument)
    (hwords : argv.filter (!isFlagArgument ·) = argv'.filter (!isFlagArgument ·))
    (hdistinct : ((argv.filter isFlagArgument).map argumentKey).Nodup)
    (hperm : (argv.filter isFlagArgument).Perm (argv'.filter isFlagArgument)) :
    ∃ found : Except LineFailure (Option (List Reading)),
      commandLine.parse argv = found.map (·.map (bindingsOf · (flagsOfArguments argv))) ∧
      commandLine.parse argv' = found.map (·.map (bindingsOf · (flagsOfArguments argv'))) ∧
      ∀ readings, found = .ok (some readings) →
        readings.map Reading.word = argv.filter (!isFlagArgument ·) := by
  have hdistinct' : ((argv'.filter isFlagArgument).map argumentKey).Nodup :=
    (hperm.map argumentKey).nodup_iff.mp hdistinct
  rw [← keys_flagsOfArguments] at hdistinct hdistinct'
  have htable := FlagTable.ofList_of_nodup hdistinct
  have htable' := FlagTable.ofList_of_nodup hdistinct'
  obtain ⟨line, line', hread, hread', htexts, hflags, hflags', hagrees⟩ :=
    exists_agrees_of_filter_eq hkeys hkeys' hwords fun key => by
      rw [htable, htable']
      exact FlagTable.get?_of_perm hdistinct (flagsOfArguments_of_perm hperm) key
  obtain ⟨found, hline, hline', hreadings⟩ :=
    Match.parse_of_agrees hagrees hread hread' commandLine.grammar
  rw [hflags, htable] at hline
  rw [hflags', htable'] at hline'
  refine ⟨found, hline, hline', ?_⟩
  intro readings heq
  exact Option.some.inj ((hreadings readings heq).symm.trans htexts)

/-- **Flags may stand anywhere.** Let two argument vectors have the same words in the same order,
and flags with keys without blanks. If they have the same flags in the same order, they find the
same, and a complete grammar always finds something. If they have the same flags in any order,
none of them twice, they both fit or both do not, and if they fit, their words have the same
readings, and each binds its own flags. Only a grammar that is not complete may fail, and then it
fails for both. -/
theorem parse_interleaved
    (hkeys : ∀ argument ∈ argv, isFlagArgument argument = true → HasKey argument)
    (hkeys' : ∀ argument ∈ argv', isFlagArgument argument = true → HasKey argument)
    (hwords : argv.filter (!isFlagArgument ·) = argv'.filter (!isFlagArgument ·)) :
    (argv.filter isFlagArgument = argv'.filter isFlagArgument →
      commandLine.parse argv = commandLine.parse argv' ∧
        (commandLine.grammar.isComplete = true → ∃ found, commandLine.parse argv = .ok found)) ∧
    (((argv.filter isFlagArgument).map argumentKey).Nodup →
      (argv.filter isFlagArgument).Perm (argv'.filter isFlagArgument) →
      (∃ readings, readings.map Reading.word = argv.filter (!isFlagArgument ·) ∧
        commandLine.parse argv = .ok (some (bindingsOf readings (flagsOfArguments argv))) ∧
        commandLine.parse argv' = .ok (some (bindingsOf readings (flagsOfArguments argv'))) ∧
        (flagsOfArguments argv).Perm (flagsOfArguments argv')) ∨
      (commandLine.parse argv = .ok none ∧ commandLine.parse argv' = .ok none) ∨
      (commandLine.grammar.isComplete = false ∧ ∃ failure,
        commandLine.parse argv = .error failure ∧ commandLine.parse argv' = .error failure)) := by
  have htotal (hcomplete : commandLine.grammar.isComplete = true) :
      ∃ found, commandLine.parse argv = .ok found := by
    obtain ⟨line, hread, -⟩ := exists_read_joinArguments hkeys
    exact Match.exists_parse_eq_ok hcomplete hread
  constructor
  · intro hflags
    exact ⟨parse_eq_of_filter_eq commandLine hkeys hkeys' hwords hflags, htotal⟩
  · intro hdistinct hperm
    obtain ⟨found, hparse, hparse', hreadings⟩ :=
      parse_of_perm commandLine hkeys hkeys' hwords hdistinct hperm
    cases found with
    | ok found =>
      cases found with
      | some readings =>
        exact .inl ⟨readings, hreadings readings rfl, hparse, hparse',
          flagsOfArguments_of_perm hperm⟩
      | none => exact .inr (.inl ⟨hparse, hparse'⟩)
    | error failure =>
      have hincomplete : commandLine.grammar.isComplete = false := by
        by_contra hcomplete
        obtain ⟨found, hfound⟩ := htotal (by simpa using hcomplete)
        cases hparse.symm.trans hfound
      exact .inr (.inr ⟨hincomplete, failure, hparse, hparse'⟩)

end Vectors

/-- Two words and two flags, one of which moves from the first place to the last. -/
theorem parse_interleaved_two_flags :
    let commandLine : CommandLine Unit :=
      ⟨⟨"cp".toList, "<from> <to> [--mode=<m>] [--force]".toList, false, none⟩,
        .sequence {} [.parameter {} "from".toList, .parameter {} "to".toList,
          .setting ⟨true, false⟩ "mode".toList (.parameter {} "m".toList),
          .flag ⟨true, false⟩ "force".toList], []⟩
    let argv := ["--mode=a b", "x", "--force", "y"].map String.toList
    let argv' := ["x", "y", "--force", "--mode=a b"].map String.toList
    (∀ argument ∈ argv ++ argv', isFlagArgument argument = true → HasKey argument) ∧
      ((argv.filter isFlagArgument).map argumentKey).Nodup ∧
      (argv.filter isFlagArgument).Perm (argv'.filter isFlagArgument) ∧
      ∃ readings, readings.map Reading.word = ["x".toList, "y".toList] ∧
        commandLine.parse argv = .ok (some (bindingsOf readings
          [("mode".toList, some "a b".toList), ("force".toList, none)])) ∧
        commandLine.parse argv' = .ok (some (bindingsOf readings
          [("force".toList, none), ("mode".toList, some "a b".toList)])) := by
  intro commandLine argv argv'
  have hkeys : ∀ argument ∈ argv ++ argv', isFlagArgument argument = true → HasKey argument := by
    decide
  have hdistinct : ((argv.filter isFlagArgument).map argumentKey).Nodup := by decide
  have hperm : (argv.filter isFlagArgument).Perm (argv'.filter isFlagArgument) := by decide
  have hfits : (commandLine.parse argv).toOption.map Option.isSome = some true := by
    decide +kernel
  obtain ⟨-, hpermuted⟩ := parse_interleaved commandLine
    (fun argument hmem => hkeys argument (List.mem_append_left _ hmem))
    (fun argument hmem => hkeys argument (List.mem_append_right _ hmem))
    (by decide : argv.filter (!isFlagArgument ·) = argv'.filter (!isFlagArgument ·))
  rcases hpermuted hdistinct hperm with ⟨readings, hwords, hparse, hparse', -⟩ |
    ⟨hnone, -⟩ | ⟨-, failure, hfailure, -⟩
  · exact ⟨hkeys, hdistinct, hperm, readings, hwords, hparse, hparse'⟩
  · rw [hnone] at hfits
    cases hfits
  · rw [hfailure] at hfits
    cases hfits

end Dispatch

end Synopsis
