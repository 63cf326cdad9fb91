/-
Synopsis.Proofs.Dispatch.KnownKeywords — what literals capture is known beforehand.

A program collects the literals of its usage when it is built. It looks neither at their
order, nor at the marks of nodes, nor at which literals exclude each other, and it leaves out
what a flag may be set to. A match on the other hand backtracks, repeats nodes and takes one
alternative of several. Still, whatever line is matched, literals capture nothing but what
was collected (`TakenFor.mem_literals`): a match derives the line, and the words of a
derivation come from the literals of its tree.

So a handler can be registered for every path that some line leads to
(`register_of_parseWindow`). The converse does not hold, see
`Synopsis.Proofs.Dispatch.Liveness`.
-/
import Synopsis.Proofs.Dispatch.Liveness

namespace Synopsis

namespace Match

/-- Each reading is captured under its own number. -/
theorem Reading.getElem?_captures (token index : Nat) (readings : List Reading) :
    (Reading.captures token readings)[index]? =
      readings[index]?.map (Reading.capture (token + index)) := by
  induction readings generalizing token index with
  | nil => rfl
  | cons reading readings ih =>
    rw [Reading.captures]
    cases index with
    | zero => rfl
    | succ index =>
      rw [List.getElem?_cons_succ, ih, List.getElem?_cons_succ]
      rw [show token + 1 + index = token + (index + 1) by omega]

end Match

namespace Dispatch

open Match (Bindings Reading Derives)
open CommandLine (keywords)

/-! ## §1 What the words of a line are taken for -/

/-- The tree matches the line that the window shows, and its words have these readings: the tree
derives them with the flags of the line, and both are what is bound. -/
structure TakenFor (tree : Node) (w : Window) (readings : List Reading) (bindings : Bindings) :
    Prop where
  parse_eq : Match.parseWindow tree w = .ok (some bindings)
  derives : ∃ source keys, Line.read w = .ok source ∧
    source.texts? = some (readings.map Reading.word) ∧ Derives source.flags tree readings keys ∧
    (∀ key ∈ source.flags.keys, key ∈ keys) ∧
    bindings.captures = Reading.captures 0 readings ++ source.flags

/-- The words of every line that is matched are taken for something. -/
theorem exists_takenFor {tree : Node} {w : Window} {bindings : Bindings}
    (h : Match.parseWindow tree w = .ok (some bindings)) :
    ∃ readings, TakenFor tree w readings bindings := by
  obtain ⟨source, hread, hjudge⟩ := Match.parseWindow_eq_ok_some_iff.mp h
  obtain ⟨words, htexts, readings, keys, hderives, rfl, hkeys, hcaptures⟩ :=
    Match.derivesLine_of_judge hjudge
  exact ⟨readings, h, source, keys, hread, htexts, hderives, hkeys, hcaptures⟩

namespace TakenFor

variable {tree : Node} {w : Window} {readings : List Reading} {bindings : Bindings}

/-- The captures of words come first, one for each word. -/
theorem getElem?_captures (h : TakenFor tree w readings bindings) {token : Nat} {reading : Reading}
    (hreading : readings[token]? = some reading) :
    bindings.captures[token]? = some (reading.capture token) := by
  obtain ⟨source, keys, -, -, -, -, hcaptures⟩ := h.derives
  have hcapture : (Reading.captures 0 readings)[token]? = some (reading.capture token) := by
    rw [Match.Reading.getElem?_captures, hreading, Nat.zero_add]
    rfl
  have hlt := (List.getElem?_eq_some_iff.mp hcapture).1
  rw [hcaptures, List.getElem?_append_left hlt, hcapture]

/-- The words that literals take are literals of the tree. -/
theorem mem_literals (h : TakenFor tree w readings bindings) {name : Text}
    (hname : name ∈ literalWords readings) : name ∈ tree.literals := by
  obtain ⟨source, keys, -, -, hderives, -⟩ := h.derives
  exact literalWords_subset_of_derives hderives hname

/-- What is captured under the key of a literal comes from a literal, unless a parameter has the
same name. -/
theorem exists_literal_of_capture (h : TakenFor tree w readings bindings) {token : Nat}
    {value : Option Text} (htoken : token < readings.length)
    (hcapture : bindings.captures[token]? = some (Match.unnamedKey token, value))
    (hname : Match.unnamedKey token ∉ tree.names) :
    ∃ name ∈ tree.literals, value = some name := by
  have hreading := List.getElem?_eq_getElem htoken
  have heq := (h.getElem?_captures hreading).symm.trans hcapture
  have hmem : readings[token] ∈ readings := List.getElem_mem htoken
  cases hcase : readings[token] with
  | keyword name =>
    rw [hcase] at heq hmem
    have hword : name ∈ literalWords readings := List.mem_filterMap.mpr ⟨_, hmem, rfl⟩
    exact ⟨name, h.mem_literals hword, (congrArg Prod.snd (Option.some.inj heq)).symm⟩
  | value key word =>
    rw [hcase] at heq hmem
    obtain ⟨source, keys, -, -, hderives, -⟩ := h.derives
    have hkey : key = Match.unnamedKey token := congrArg Prod.fst (Option.some.inj heq)
    rw [← hkey] at hname
    exact absurd ((Match.bindsAmong_of_derives hderives).value_mem key word hmem) hname

/-- Without reserved names the keywords are the words that literals took. -/
theorem keywords_eq (h : TakenFor tree w readings bindings)
    (hnames : ∀ name ∈ tree.names, isReserved name = false) :
    keywords bindings = (literalWords readings).map some := by
  obtain ⟨source, keys, -, -, hderives, hkeys, hcaptures⟩ := h.derives
  exact (keywords_eq_iff hcaptures).mpr (unreserved_of_derives hderives hkeys hnames)

end TakenFor

/-! ## §2 Registration -/

namespace CommandLine

variable {H : Type} {config : Config} {fresh : CommandLine H}

/-- The first handler is accepted for every path of literals. -/
theorem register_of_subset (h : CommandLine.ofConfig config = .ok fresh) {path : List Text}
    (hpath : path ⊆ fresh.grammar.literals) (handler : H) :
    fresh.register path handler = .ok { fresh with handlers := [(path, handler)] } := by
  obtain ⟨tree, -, rfl⟩ := ofConfig_eq_ok_iff.mp h
  exact register_eq_ok_iff.mpr ⟨rfl, fun keyword hmem => hpath hmem, rfl⟩

/-- **Known keywords.** Take any usage, committed or not, and any line that its tree matches. The words
of the line are taken for something then, and whatever they are taken for, each word that a literal
takes is captured under its number and is one of the literals that the program has collected; no
handler is refused for a path that such words begin with. If no parameter has the name of such a key,
what is captured under it is a literal. If no name at all is reserved, no handler is refused for a
path that the keywords begin with, by which lines are dispatched. -/
theorem register_of_parseWindow (h : CommandLine.ofConfig config = .ok fresh) {w : Window}
    {bindings : Bindings} (hparse : Match.parseWindow fresh.grammar w = .ok (some bindings)) :
    (∃ readings, TakenFor fresh.grammar w readings bindings) ∧
    (∀ readings, TakenFor fresh.grammar w readings bindings →
      (∀ token name, readings[token]? = some (.keyword name) →
        bindings.captures[token]? = some (Match.unnamedKey token, some name) ∧
          name ∈ fresh.grammar.literals) ∧
      (∀ token value, token < readings.length →
        bindings.captures[token]? = some (Match.unnamedKey token, value) →
          Match.unnamedKey token ∉ fresh.grammar.names →
            ∃ name ∈ fresh.grammar.literals, value = some name) ∧
      ∀ path handler, path <+: literalWords readings →
        fresh.register path handler = .ok { fresh with handlers := [(path, handler)] }) ∧
    ((∀ name ∈ fresh.grammar.names, isReserved name = false) →
      ∀ path handler, path.map some <+: keywords bindings →
        fresh.register path handler = .ok { fresh with handlers := [(path, handler)] }) := by
  have haccepted {readings : List Reading} (htaken : TakenFor fresh.grammar w readings bindings)
      {path : List Text} (hbegins : path <+: literalWords readings) (handler : H) :
      fresh.register path handler = .ok { fresh with handlers := [(path, handler)] } :=
    register_of_subset h (fun keyword hmem => htaken.mem_literals (hbegins.subset hmem)) handler
  refine ⟨exists_takenFor hparse, fun readings htaken => ⟨?_, ?_, ?_⟩, ?_⟩
  · intro token name hreading
    have hword : name ∈ literalWords readings :=
      List.mem_filterMap.mpr ⟨_, List.mem_of_getElem? hreading, rfl⟩
    exact ⟨htaken.getElem?_captures hreading, htaken.mem_literals hword⟩
  · intro token value htoken hcapture hname
    exact htaken.exists_literal_of_capture htoken hcapture hname
  · intro path handler hbegins
    exact haccepted htaken hbegins handler
  · intro hnames path handler hbegins
    obtain ⟨readings, htaken⟩ := exists_takenFor hparse
    rw [htaken.keywords_eq hnames] at hbegins
    exact haccepted htaken
      ((List.prefix_map_iff_of_injective fun _ _ => Option.some.inj).mp hbegins) handler

/-- The second of the two alternatives of a committed usage matches, and a flag is set to a word that
is no literal outside its value. -/
theorem register_of_parseWindow_two_alternatives :
    let config : Config :=
      ⟨"p".toList, "[old | new] [add] <name> [--mode=(fast | slow)]".toList, true, none⟩
    let w : Window := .whole "new add x --mode=fast".toList
    let bindings : Bindings := ⟨[("unnamed_0".toList, some "new".toList),
      ("unnamed_1".toList, some "add".toList), ("name".toList, some "x".toList),
      ("mode".toList, some "fast".toList)]⟩
    let path := ["new".toList, "add".toList]
    ∃ fresh : CommandLine Unit, CommandLine.ofConfig config = .ok fresh ∧
      Match.parseWindow fresh.grammar w = .ok (some bindings) ∧
      (∃ readings, TakenFor fresh.grammar w readings bindings ∧ literalWords readings = path ∧
        (∃ name ∈ fresh.grammar.literals, some "add".toList = some name) ∧
        fresh.register ["new".toList] () =
          .ok { fresh with handlers := [(["new".toList], ())] }) ∧
      "fast".toList ∉ fresh.grammar.literals ∧
      fresh.register path () = .ok { fresh with handlers := [(path, ())] } := by
  intro config w bindings path
  let value : Node := .setting ⟨true, false⟩ "mode".toList
    (.choice {} [.literal {} "fast".toList, .literal {} "slow".toList])
  let ages : List Node := [.literal {} "old".toList, .literal {} "new".toList]
  let tree : Node := .choice {}
    [.sequence {} [.choice ⟨true, false⟩ ages, .parameter {} "name".toList, value],
      .sequence {} [.choice {} ages, .literal ⟨true, false⟩ "add".toList,
        .parameter {} "name".toList, value]]
  let fresh : CommandLine Unit := ⟨config, tree, []⟩
  have hfresh : CommandLine.ofConfig config = .ok fresh :=
    ofConfig_eq_ok_iff.mpr ⟨tree, Match.eq_ok_of_toOption (by decide +kernel), rfl⟩
  have hparse : Match.parseWindow fresh.grammar w = .ok (some bindings) :=
    Match.eq_ok_of_toOption (by decide +kernel)
  obtain ⟨⟨readings, htaken⟩, hreadings, hkeywords⟩ := register_of_parseWindow hfresh hparse
  have hnames : ∀ name ∈ fresh.grammar.names, isReserved name = false := by decide
  have hwords : literalWords readings = path :=
    (List.map_inj_right fun _ _ => Option.some.inj).mp (htaken.keywords_eq hnames).symm
  have hlength : path.length ≤ readings.length := hwords ▸ List.length_filterMap_le _ _
  obtain ⟨-, hcaptured, haccepted⟩ := hreadings readings htaken
  have hbegins : ["new".toList] <+: literalWords readings := hwords ▸ ⟨["add".toList], rfl⟩
  exact ⟨fresh, hfresh, hparse,
    ⟨readings, htaken, hwords, hcaptured 1 _ hlength rfl (by decide), haccepted _ () hbegins⟩,
    by decide, hkeywords hnames path () ⟨[], by decide⟩⟩

end CommandLine

end Dispatch

end Synopsis
