/-
Synopsis.Proofs.Dispatch.Keywords — what a match is dispatched by.

The keywords of a match are the texts bound under keys that begin like those of literals.
A name of a parameter or a flag may begin in this way too; such a name is called reserved
here. What is bound under it cannot be told from a literal, so it is among the keywords
(`keywords_eq`).

Unless a reserved parameter took a word or a reserved flag was given, the keywords are the
words of the literals, in order, and matches with the same such words are handed to the
same handler (`keywords_of_matches`). A derivation binds names of its tree only
(`bindsAmong_of_derives`), so this is so for every match with a usage that has no reserved
name.
-/
import Synopsis.Dispatch.CommandLine
import Synopsis.Proofs.Match.Soundness
import Mathlib.Data.List.Basic

namespace Synopsis

/-! ## §1 Names -/

namespace Node

mutual

/-- The names under which the tree may bind something: those of its parameters and the keys of its
flags. -/
def names : Node → List Text
  | .parameter _ name => [name]
  | .flag _ key | .setting _ key _ => [key]
  | .sequence _ children => namesOfAll children
  | .choice _ alternatives => namesOfAll alternatives
  | .literal _ _ | .empty _ | .hole _ => []

def namesOfAll : List Node → List Text
  | [] => []
  | node :: nodes => node.names ++ namesOfAll nodes

end

theorem names_subset_namesOfAll {node : Node} {nodes : List Node} (h : node ∈ nodes) :
    node.names ⊆ namesOfAll nodes := by
  induction nodes with
  | nil => cases h
  | cons other nodes ih =>
    rw [namesOfAll]
    rcases List.mem_cons.mp h with rfl | h
    · exact List.subset_append_left _ _
    · exact List.Subset.trans (ih h) (List.subset_append_right _ _)

end Node

namespace Match

/-- All values and flags have names among the given ones. -/
structure BindsAmong (names : List Text) (readings : List Reading) (keys : List Text) : Prop where
  value_mem (key word : Text) : Reading.value key word ∈ readings → key ∈ names
  key_mem (key : Text) : key ∈ keys → key ∈ names

theorem bindsAmong_nil (names : List Text) : BindsAmong names [] [] :=
  ⟨by simp, by simp⟩

theorem BindsAmong.append {names : List Text} {readings readings' : List Reading}
    {keys keys' : List Text} (h : BindsAmong names readings keys)
    (h' : BindsAmong names readings' keys') :
    BindsAmong names (readings ++ readings') (keys ++ keys') where
  value_mem key word hmem :=
    (List.mem_append.mp hmem).elim (h.value_mem key word) (h'.value_mem key word)
  key_mem key hmem := (List.mem_append.mp hmem).elim (h.key_mem key) (h'.key_mem key)

theorem BindsAmong.mono {names names' : List Text} {readings : List Reading} {keys : List Text}
    (h : BindsAmong names readings keys) (hsub : names ⊆ names') :
    BindsAmong names' readings keys :=
  ⟨fun key word hmem => hsub (h.value_mem key word hmem), fun key hmem => hsub (h.key_mem key hmem)⟩

mutual

/-- One occurrence of a node binds names of the node only. -/
theorem bindsAmong_of_occurs {flags : FlagTable} : ∀ {node : Node} {readings : List Reading}
    {keys : List Text}, Occurs flags node readings keys → BindsAmong node.names readings keys
  | _, _, _, .literal occ name => ⟨by simp, by simp⟩
  | _, _, _, .parameter occ name word => ⟨by simp [Node.names], by simp⟩
  | _, _, _, .flag _ => ⟨by simp, by simp [Node.names]⟩
  | _, _, _, .setting _ _ => ⟨by simp, by simp [Node.names]⟩
  | _, _, _, .sequence hchildren => by
    rw [Node.names]
    exact bindsAmong_of_derivesAll hchildren
  | _, _, _, .choice hmem halternative => by
    rw [Node.names]
    exact (bindsAmong_of_derives halternative).mono (Node.names_subset_namesOfAll hmem)
  | _, _, _, .empty occ => bindsAmong_nil _

theorem bindsAmong_of_derives {flags : FlagTable} : ∀ {node : Node} {readings : List Reading}
    {keys : List Text}, Derives flags node readings keys → BindsAmong node.names readings keys
  | _, _, _, .once hoccurs => bindsAmong_of_occurs hoccurs
  | _, _, _, .again _ _ hoccurs hrest =>
    (bindsAmong_of_occurs hoccurs).append (bindsAmong_of_derives hrest)
  | _, _, _, .absent _ => bindsAmong_nil _

theorem bindsAmong_of_derivesAll {flags : FlagTable} : ∀ {nodes : List Node}
    {readings : List Reading} {keys : List Text}, DerivesAll flags nodes readings keys →
      BindsAmong (Node.namesOfAll nodes) readings keys
  | _, _, _, .nil => bindsAmong_nil _
  | _, _, _, .cons hnode hnodes => by
    rw [Node.namesOfAll]
    exact ((bindsAmong_of_derives hnode).mono (List.subset_append_left _ _)).append
      ((bindsAmong_of_derivesAll hnodes).mono (List.subset_append_right _ _))

end

end Match

namespace Dispatch

open Match (Bindings Reading)
open CommandLine (keywords)

/-! ## §2 Keywords -/

/-- The name begins like the keys under which literals are captured. -/
def isReserved (name : Text) : Bool := Match.unnamedStem.isPrefixOf name

theorem isReserved_unnamedKey (token : Nat) : isReserved (Match.unnamedKey token) = true := by
  rw [isReserved, Match.unnamedKey, List.isPrefixOf_iff_prefix]
  exact List.prefix_append _ _

def literalWords (readings : List Reading) : List Text :=
  readings.filterMap fun
    | .keyword name => some name
    | .value _ _ => none

def reservedWords (readings : List Reading) : List Text :=
  readings.filterMap fun
    | .keyword _ => none
    | .value key word => if isReserved key then some word else none

def reservedFlags (flags : FlagTable) : FlagTable := flags.filter fun (key, _) => isReserved key

def Unreserved (readings : List Reading) (flags : FlagTable) : Prop :=
  reservedWords readings = [] ∧ reservedFlags flags = []

/-- The words that cannot be told from those of literals. -/
def keywordWords (readings : List Reading) : List Text :=
  readings.filterMap fun
    | .keyword name => some name
    | .value key word => if isReserved key then some word else none

/-- Such words were taken by literals or by parameters with reserved names. -/
theorem length_keywordWords (readings : List Reading) :
    (keywordWords readings).length =
      (literalWords readings).length + (reservedWords readings).length := by
  induction readings with
  | nil => rfl
  | cons reading readings ih =>
    simp only [keywordWords, literalWords, reservedWords, List.filterMap_cons] at ih ⊢
    cases reading with
    | keyword name => simp [ih]; omega
    | value key word => by_cases h : isReserved key = true <;> simp [h, ih]; omega

theorem keywordWords_of_reservedWords {readings : List Reading} (h : reservedWords readings = []) :
    keywordWords readings = literalWords readings := by
  refine List.filterMap_congr fun reading hmem => ?_
  have hnone := List.filterMap_eq_nil_iff.mp h reading hmem
  cases reading with
  | keyword name => rfl
  | value key word => exact hnone

section Captures

variable {readings : List Reading} {flags : FlagTable} {bindings : Bindings}

/-- The selection among the captures of words. -/
theorem filter_captures (token : Nat) (readings : List Reading) :
    ((Reading.captures token readings).filter fun (key, _) => isReserved key).map Prod.snd =
      (keywordWords readings).map some := by
  induction readings generalizing token with
  | nil => rfl
  | cons reading readings ih =>
    rw [Reading.captures, List.filter_cons]
    cases reading with
    | keyword name => simp [Reading.capture, isReserved_unnamedKey, ih, keywordWords]
    | value key word =>
      cases h : isReserved key with
      | true => simp [Reading.capture, h, ih, keywordWords]
      | false => simp [Reading.capture, h, ih, keywordWords]

/-- The keywords are the words of literals and those taken under reserved names, in order, and then
what was given for flags with reserved keys. -/
theorem keywords_eq (h : bindings.captures = Reading.captures 0 readings ++ flags) :
    keywords bindings =
      (keywordWords readings).map some ++ (reservedFlags flags).map Prod.snd := by
  rw [keywords, h, List.filter_append, List.map_append]
  exact congrArg (· ++ _) (filter_captures 0 readings)

/-- The keywords are the words of the literals just if there is nothing under a reserved name. -/
theorem keywords_eq_iff (h : bindings.captures = Reading.captures 0 readings ++ flags) :
    keywords bindings = (literalWords readings).map some ↔ Unreserved readings flags := by
  rw [keywords_eq h]
  constructor
  · intro heq
    have hlength := congrArg List.length heq
    simp only [List.length_append, List.length_map, length_keywordWords] at hlength
    exact ⟨List.eq_nil_of_length_eq_zero (by omega), List.eq_nil_of_length_eq_zero (by omega)⟩
  · rintro ⟨hwords, hflags⟩
    rw [keywordWords_of_reservedWords hwords, hflags, List.map_nil, List.append_nil]

/-- A derivation binds nothing under a reserved name if its tree has none. -/
theorem unreserved_of_derives {tree : Node} {keys : List Text}
    (hderives : Match.Derives flags tree readings keys) (hkeys : ∀ key ∈ flags.keys, key ∈ keys)
    (hnames : ∀ name ∈ tree.names, isReserved name = false) : Unreserved readings flags := by
  have hamong := Match.bindsAmong_of_derives hderives
  constructor
  · refine List.filterMap_eq_nil_iff.mpr fun reading hmem => ?_
    cases reading with
    | keyword name => rfl
    | value key word => simp [hnames key (hamong.value_mem key word hmem)]
  · refine List.filter_eq_nil_iff.mpr fun entry hmem => ?_
    have hkey := hkeys entry.1 (List.mem_map_of_mem hmem)
    simp [hnames entry.1 (hamong.key_mem entry.1 hkey)]

end Captures

/-! ## §3 Matches -/

variable {H : Type}

/-- The arguments match: their words have these readings and these are their flags, and this is
bound. -/
structure Matches (commandLine : CommandLine H) (argv : List Text) (readings : List Reading)
    (flags : FlagTable) (bindings : Bindings) : Prop where
  parse_eq : commandLine.parse argv = .ok (some bindings)
  read_eq : ∃ line, Line.read (.whole (joinArguments argv)) = .ok line ∧
    line.texts? = some (readings.map Reading.word) ∧ line.flags = flags
  derives : ∃ keys, Match.Derives flags commandLine.grammar readings keys ∧
    ∀ key ∈ flags.keys, key ∈ keys
  captures_eq : bindings.captures = Reading.captures 0 readings ++ flags

/-- Whatever matches does so with some readings. -/
theorem exists_matches {commandLine : CommandLine H} {argv : List Text} {bindings : Bindings}
    (h : commandLine.parse argv = .ok (some bindings)) :
    ∃ readings flags, Matches commandLine argv readings flags bindings := by
  obtain ⟨line, hread, hjudge⟩ := Match.parseWindow_eq_ok_some_iff.mp h
  obtain ⟨words, htexts, readings, keys, hderives, rfl, hkeys, hcaptures⟩ :=
    Match.derivesLine_of_judge hjudge
  exact ⟨readings, line.flags, h, ⟨line, hread, htexts, rfl⟩, ⟨keys, hderives, hkeys⟩, hcaptures⟩

section Runs

variable {commandLine : CommandLine H} {argv argv' : List Text} {readings readings' : List Reading}
  {flags flags' : FlagTable} {bindings bindings' : Bindings}

/-- Nothing is bound under a reserved name if the usage has none. -/
theorem Matches.unreserved (h : Matches commandLine argv readings flags bindings)
    (hnames : ∀ name ∈ commandLine.grammar.names, isReserved name = false) :
    Unreserved readings flags := by
  obtain ⟨keys, hderives, hkeys⟩ := h.derives
  exact unreserved_of_derives hderives hkeys hnames

/-- The handler is chosen by the words of the literals alone. -/
theorem Matches.resolve_eq (h : Matches commandLine argv readings flags bindings)
    (h' : Matches commandLine argv' readings' flags' bindings')
    (hplain : Unreserved readings flags) (hplain' : Unreserved readings' flags')
    (hwords : literalWords readings = literalWords readings') :
    commandLine.resolve bindings = commandLine.resolve bindings' := by
  have hkeywords : keywords bindings = keywords bindings' := by
    rw [(keywords_eq_iff h.captures_eq).mpr hplain, (keywords_eq_iff h'.captures_eq).mpr hplain',
      hwords]
  rw [CommandLine.resolve, CommandLine.resolve, hkeywords]

end Runs

/-- **Keywords.** Whatever matches does so with some readings of its words. The keywords are then
the words that literals took, in order, if and only if no parameter with a reserved name took a
word and no flag with a reserved key was given; so they are if the usage has no reserved names. Of
two matches without such words and flags in which the literals took the same words, both are handed
to the same handler or neither is to any, whatever their values and their flags are. -/
theorem keywords_of_matches (commandLine : CommandLine H) :
    (∀ argv bindings, commandLine.parse argv = .ok (some bindings) →
      ∃ readings flags, Matches commandLine argv readings flags bindings) ∧
    (∀ argv readings flags bindings, Matches commandLine argv readings flags bindings →
      (keywords bindings = (literalWords readings).map some ↔ Unreserved readings flags) ∧
      ((∀ name ∈ commandLine.grammar.names, isReserved name = false) →
        keywords bindings = (literalWords readings).map some)) ∧
    ∀ argv argv' readings readings' flags flags' bindings bindings',
      Matches commandLine argv readings flags bindings →
      Matches commandLine argv' readings' flags' bindings' →
      Unreserved readings flags → Unreserved readings' flags' →
      literalWords readings = literalWords readings' →
        commandLine.resolve bindings = commandLine.resolve bindings' := by
  refine ⟨fun argv bindings => exists_matches, ?_, ?_⟩
  · intro argv readings flags bindings h
    have hiff := keywords_eq_iff h.captures_eq
    exact ⟨hiff, fun hnames => hiff.mpr (h.unreserved hnames)⟩
  · intro argv argv' readings readings' flags flags' bindings bindings' h h'
    exact h.resolve_eq h'

/-- Two runs with other values, one of them with a flag, for one handler. -/
theorem keywords_of_matches_install :
    let commandLine : CommandLine Text :=
      ⟨⟨"p".toList, "(install | remove) <name> [--dry]".toList, false, none⟩,
        .sequence {} [.choice {} [.literal {} "install".toList, .literal {} "remove".toList],
          .parameter {} "name".toList, .flag ⟨true, false⟩ "dry".toList],
        [(["install".toList], "handler".toList)]⟩
    ∃ readings readings' flags flags' bindings bindings',
      Matches commandLine ["install".toList, "x".toList] readings flags bindings ∧
      Matches commandLine ["install".toList, "--dry".toList, "y".toList] readings' flags'
        bindings' ∧
      literalWords readings = ["install".toList] ∧ literalWords readings' = ["install".toList] ∧
      commandLine.resolve bindings = some (["install".toList], "handler".toList) ∧
      commandLine.resolve bindings' = some (["install".toList], "handler".toList) := by
  intro commandLine
  obtain ⟨hexists, hkeywords, hsame⟩ := keywords_of_matches commandLine
  have hnames : ∀ name ∈ commandLine.grammar.names, isReserved name = false := by decide
  obtain ⟨readings, flags, h⟩ := hexists ["install".toList, "x".toList]
    ⟨[("unnamed_0".toList, some "install".toList), ("name".toList, some "x".toList)]⟩
    (Match.eq_ok_of_toOption (by decide +kernel))
  obtain ⟨readings', flags', h'⟩ := hexists ["install".toList, "--dry".toList, "y".toList]
    ⟨[("unnamed_0".toList, some "install".toList), ("name".toList, some "y".toList),
      ("dry".toList, none)]⟩ (Match.eq_ok_of_toOption (by decide +kernel))
  obtain ⟨hiff, hall⟩ := hkeywords _ _ _ _ h
  obtain ⟨hiff', hall'⟩ := hkeywords _ _ _ _ h'
  have hwords : literalWords readings = ["install".toList] :=
    (List.map_inj_right fun _ _ => Option.some.inj).mp (hall hnames).symm
  have hwords' : literalWords readings' = ["install".toList] :=
    (List.map_inj_right fun _ _ => Option.some.inj).mp (hall' hnames).symm
  have hresolve := hsame _ _ _ _ _ _ _ _ h h' (hiff.mp (hall hnames)) (hiff'.mp (hall' hnames))
    (hwords.trans hwords'.symm)
  have hhandler : commandLine.resolve
      ⟨[("unnamed_0".toList, some "install".toList), ("name".toList, some "x".toList)]⟩ =
        some (["install".toList], "handler".toList) := by decide
  exact ⟨readings, readings', flags, flags', _, _, h, h', hwords, hwords', hhandler,
    hresolve.symm.trans hhandler⟩

/-- A parameter with a reserved name takes a word that is counted among the keywords. -/
theorem not_forall_keywords_eq :
    ¬ ∀ (config : Config) (commandLine : CommandLine Unit) (argv : List Text)
        (bindings : Bindings), CommandLine.ofConfig config = .ok commandLine →
      commandLine.parse argv = .ok (some bindings) →
        ∃ readings flags, Matches commandLine argv readings flags bindings ∧
          keywords bindings = (literalWords readings).map some := by
  intro hkeywords
  let tree : Node := .sequence {} [.choice {} [.literal {} "run".toList, .literal {} "stop".toList],
    .parameter {} "unnamed_x".toList]
  let config : Config := ⟨"p".toList, "(run | stop) <unnamed_x>".toList, false, none⟩
  let commandLine : CommandLine Unit := ⟨config, tree, []⟩
  have hcompiled : CommandLine.ofConfig config = .ok commandLine := by
    have htree : Usage.compile config.usage false = .ok tree :=
      Match.eq_ok_of_toOption (by decide +kernel)
    rw [CommandLine.ofConfig, htree]
    rfl
  obtain ⟨readings, flags, hmatches, heq⟩ := hkeywords config commandLine
    ["run".toList, "stop".toList]
    ⟨[("unnamed_0".toList, some "run".toList), ("unnamed_x".toList, some "stop".toList)]⟩
    hcompiled (Match.eq_ok_of_toOption (by decide +kernel))
  have hcaptures := hmatches.captures_eq
  obtain ⟨hwords, hflags⟩ := (keywords_eq_iff hcaptures).mp heq
  -- the second capture is that of a flag or of a parameter, for a literal has another key
  cases readings with
  | nil =>
    obtain rfl : _ = flags := hcaptures
    cases hflags
  | cons first readings =>
    obtain ⟨-, hrest⟩ := List.cons.inj hcaptures
    cases readings with
    | nil =>
      obtain rfl : _ = flags := hrest
      cases hflags
    | cons second readings =>
      obtain ⟨hsecond, -⟩ := List.cons.inj hrest
      have hnone := List.filterMap_eq_nil_iff.mp hwords second (by simp)
      cases second with
      | keyword name =>
        have hkey : "unnamed_x".toList = Match.unnamedKey 1 := congrArg Prod.fst hsecond
        exact absurd hkey (by decide)
      | value key word =>
        cases hsecond
        cases hnone

end Dispatch

end Synopsis
