/-
Synopsis.Proofs.Dispatch.Runs — what a run does.

A path serves some keywords if it has a handler, is not empty, and the keywords begin with
it (`Serves`). The search for a handler goes from the longest beginning of the keywords to
the shortest, so it finds the longest path that serves them (`servesBest_of_resolve`), or
there is none (`not_serves_of_resolve`).

A run calls the handler of that path once, with what was bound, or it calls none and shows
the help (`run_registerAll`). The tree of a compiled usage is complete, so neither reading
a line nor matching it ends in a fault.
-/
import Synopsis.Proofs.Dispatch.Registration
import Synopsis.Proofs.Match.Totality

namespace Synopsis

namespace Dispatch

open Match (Bindings)

namespace CommandLine

variable {H : Type}

/-! ## §1 Paths that serve keywords -/

/-- The path has the handler, it is not empty, and the keywords begin with it. -/
structure Serves (commandLine : CommandLine H) (keywords : List (Option Text)) (path : List Text)
    (handler : H) : Prop where
  path_ne_nil : path ≠ []
  path_prefix : path.map some <+: keywords
  handler?_eq : commandLine.handler? path = some handler

/-- The path serves the keywords, and no longer path does. -/
structure ServesBest (commandLine : CommandLine H) (keywords : List (Option Text))
    (path : List Text) (handler : H) : Prop extends commandLine.Serves keywords path handler where
  length_le (other : List Text) (handler' : H) :
    commandLine.Serves keywords other handler' → other.length ≤ path.length

def beginning? (commandLine : CommandLine H) (keywords : List (Option Text)) (length : Nat) :
    Option (List Text × H) := do
  let path ← (keywords.take length).mapM id
  let handler ← commandLine.handler? path
  return (path, handler)

theorem mapM_id_eq_some_iff {keywords : List (Option Text)} {path : List Text} :
    keywords.mapM id = some path ↔ keywords = path.map some := by
  constructor
  · intro h
    simpa using Match.map_eq_of_mapM h
  · rintro rfl
    induction path with
    | nil => rfl
    | cons keyword path ih => simp [List.mapM_cons, ih]

section Search

variable {commandLine : CommandLine H} {keywords : List (Option Text)} {path : List Text}
  {handler : H} {length count : Nat}

theorem longest_succ (commandLine : CommandLine H) (keywords : List (Option Text)) (count : Nat) :
    commandLine.longest keywords (count + 1) =
      (commandLine.beginning? keywords (count + 1)).or (commandLine.longest keywords count) :=
  rfl

theorem beginning?_eq_some_iff :
    commandLine.beginning? keywords length = some (path, handler) ↔
      keywords.take length = path.map some ∧ commandLine.handler? path = some handler := by
  simp [beginning?, Option.bind_eq_some_iff, mapM_id_eq_some_iff]

/-- A path that serves the keywords is found at its length. -/
theorem Serves.beginning?_eq (h : commandLine.Serves keywords path handler) :
    commandLine.beginning? keywords path.length = some (path, handler) := by
  refine beginning?_eq_some_iff.mpr ⟨?_, h.handler?_eq⟩
  have htake := List.prefix_iff_eq_take.mp h.path_prefix
  rw [List.length_map] at htake
  exact htake.symm

theorem Serves.length_le_length (h : commandLine.Serves keywords path handler) :
    path.length ≤ keywords.length := by
  simpa using h.path_prefix.length_le

/-- What is found at a length serves the keywords and has this length. -/
theorem serves_of_beginning? (h : commandLine.beginning? keywords (count + 1) = some (path, handler))
    (hcount : count + 1 ≤ keywords.length) :
    commandLine.Serves keywords path handler ∧ path.length = count + 1 := by
  obtain ⟨htake, hhandler⟩ := beginning?_eq_some_iff.mp h
  have hlength : path.length = count + 1 := by
    have := congrArg List.length htake
    rw [List.length_take, List.length_map] at this
    omega
  refine ⟨⟨?_, htake ▸ List.take_prefix _ _, hhandler⟩, hlength⟩
  rintro rfl
  cases hlength

/-- The longest of the first beginnings that serves the keywords is found. The induction is on
their number. -/
theorem serves_of_longest (hcount : count ≤ keywords.length)
    (h : commandLine.longest keywords count = some (path, handler)) :
    commandLine.Serves keywords path handler ∧ ∀ other handler',
      commandLine.Serves keywords other handler' → other.length ≤ count →
        other.length ≤ path.length := by
  induction count with
  | zero => cases h
  | succ count ih =>
    rw [longest_succ] at h
    rcases Option.or_eq_some_iff.mp h with hfound | ⟨hnone, hrest⟩
    · obtain ⟨hserves, hlength⟩ := serves_of_beginning? hfound hcount
      exact ⟨hserves, fun other handler' _ hle => hlength ▸ hle⟩
    · obtain ⟨hserves, hbest⟩ := ih (by omega) hrest
      refine ⟨hserves, fun other handler' hother hle => ?_⟩
      by_cases heq : other.length = count + 1
      · have hfound := hother.beginning?_eq
        rw [heq, hnone] at hfound
        cases hfound
      · exact hbest other handler' hother (by omega)

/-- If none of the first beginnings is found, only longer paths may serve the keywords. -/
theorem lt_length_of_longest (h : commandLine.longest keywords count = none) :
    ∀ path handler, commandLine.Serves keywords path handler → count < path.length := by
  induction count with
  | zero => exact fun path handler hserves => List.length_pos_iff.mpr hserves.path_ne_nil
  | succ count ih =>
    intro path handler hserves
    rw [longest_succ] at h
    obtain ⟨hnone, hrest⟩ := Option.or_eq_none_iff.mp h
    have hlt := ih hrest path handler hserves
    by_contra hle
    have hfound := hserves.beginning?_eq
    rw [show path.length = count + 1 by omega, hnone] at hfound
    cases hfound

variable {bindings : Bindings}

/-- A match is handed to the longest path that serves its keywords. -/
theorem servesBest_of_resolve (h : commandLine.resolve bindings = some (path, handler)) :
    commandLine.ServesBest (CommandLine.keywords bindings) path handler := by
  obtain ⟨hserves, hbest⟩ := serves_of_longest (Nat.le_refl _) h
  exact ⟨hserves, fun other handler' hother =>
    hbest other handler' hother hother.length_le_length⟩

theorem not_serves_of_resolve (h : commandLine.resolve bindings = none) (path : List Text)
    (handler : H) : ¬ commandLine.Serves (CommandLine.keywords bindings) path handler := by
  intro hserves
  have hlt := lt_length_of_longest h path handler hserves
  exact absurd hserves.length_le_length (Nat.not_le.mpr hlt)

end Search

/-! ## §2 Runs -/

/-- No handler is called for the arguments: their line is malformed, they do not match, or no path
serves the keywords of the match. -/
inductive Unserved (commandLine : CommandLine H) (argv : List Text) : Prop where
  | malformed {error : LineError} (hparse : commandLine.parse argv = .error (.malformed error))
  | mismatch (hparse : commandLine.parse argv = .ok none)
  | unhandled {bindings : Bindings} (hparse : commandLine.parse argv = .ok (some bindings))
    (hnone : ∀ path handler, ¬ commandLine.Serves (keywords bindings) path handler)

/-- What is done with the arguments, given what they were found to bind. -/
def decisionOn (commandLine : CommandLine H) :
    Except LineFailure (Option Bindings) → Except Fault (Decision H)
  | .error (.fault fault) => .error fault
  | .error (.malformed _) | .ok none => .ok .showHelp
  | .ok (some bindings) =>
    match commandLine.resolve bindings with
    | none => .ok .showHelp
    | some (path, handler) => .ok (.handle path handler bindings)

section Run

variable {commandLine : CommandLine H} {argv : List Text}

theorem fst_decide (commandLine : CommandLine H) (argv : List Text) :
    (commandLine.decide argv).1 = commandLine.decisionOn (commandLine.parse argv) := by
  rw [parse, ← Match.fst_observeMatch]
  unfold decide decisionOn
  simp only
  obtain ⟨found, events⟩ := Match.observeMatch commandLine.grammar (joinArguments argv)
  cases found with
  | error failure => cases failure <;> rfl
  | ok found =>
    cases found with
    | none => rfl
    | some bindings =>
      simp only
      cases commandLine.resolve bindings <;> rfl

/-- A run that shows the help calls no handler. -/
theorem run_of_showHelp (h : (commandLine.decide argv).1 = .ok .showHelp)
    (perform : H → Bindings → Returned) :
    (commandLine.run perform argv).calls = [] ∧
      (commandLine.run perform argv).output = commandLine.help ++ ['\n'] ∧
      (commandLine.run perform argv).status = .ok 1 := by
  unfold run
  generalize commandLine.decide argv = decided at h
  obtain ⟨decision, events⟩ := decided
  cases h
  exact ⟨rfl, rfl, rfl⟩

/-- A run that calls a handler does so once, and shows nothing. -/
theorem run_of_handle {path : List Text} {handler : H} {bindings : Bindings}
    (h : (commandLine.decide argv).1 = .ok (.handle path handler bindings))
    (perform : H → Bindings → Returned) :
    (commandLine.run perform argv).calls = [(handler, bindings)] ∧
      (commandLine.run perform argv).output = [] ∧
      (commandLine.run perform argv).status = (perform handler bindings).status := by
  unfold run
  generalize commandLine.decide argv = decided at h
  obtain ⟨decision, events⟩ := decided
  cases h
  exact ⟨rfl, rfl, rfl⟩

/-- The help is shown, or a handler is called that serves the keywords best. -/
theorem cases_of_run (hcomplete : commandLine.grammar.isComplete = true)
    (perform : H → Bindings → Returned) (argv : List Text) :
    (commandLine.Unserved argv ∧ (commandLine.run perform argv).calls = [] ∧
      (commandLine.run perform argv).output = commandLine.help ++ ['\n'] ∧
      (commandLine.run perform argv).status = .ok 1) ∨
    ∃ bindings path handler, commandLine.parse argv = .ok (some bindings) ∧
      commandLine.ServesBest (keywords bindings) path handler ∧
      (commandLine.run perform argv).calls = [(handler, bindings)] ∧
      (commandLine.run perform argv).output = [] ∧
      (commandLine.run perform argv).status = (perform handler bindings).status := by
  have hdecide := fst_decide commandLine argv
  rcases Match.cases_of_parse_whole hcomplete (joinArguments argv) with ⟨error, hparse⟩ |
    ⟨found, hparse⟩
  · rw [parse, hparse] at hdecide
    exact .inl ⟨.malformed hparse, run_of_showHelp hdecide perform⟩
  · rw [parse, hparse] at hdecide
    cases found with
    | none => exact .inl ⟨.mismatch hparse, run_of_showHelp hdecide perform⟩
    | some bindings =>
      cases hresolve : commandLine.resolve bindings with
      | none =>
        simp only [decisionOn, hresolve] at hdecide
        exact .inl ⟨.unhandled hparse (not_serves_of_resolve hresolve),
          run_of_showHelp hdecide perform⟩
      | some found =>
        obtain ⟨path, handler⟩ := found
        simp only [decisionOn, hresolve] at hdecide
        exact .inr ⟨bindings, path, handler, hparse, servesBest_of_resolve hresolve,
          run_of_handle hdecide perform⟩

end Run

/-! ## §3 Compiled programs -/

/-- A program begins with the tree of its usage and without handlers. -/
theorem ofConfig_eq_ok_iff {config : Config} {fresh : CommandLine H} :
    CommandLine.ofConfig config = .ok fresh ↔
      ∃ tree, Usage.compile config.usage config.committing = .ok tree ∧
        fresh = ⟨config, tree, []⟩ := by
  unfold ofConfig
  cases Usage.compile config.usage config.committing with
  | error error => simp [Except.map]
  | ok tree => simp [Except.map, eq_comm]

/-- **Dispatching.** Let handlers be registered for a compiled usage by any calls, some of which
may be refused. Then the handlers are those of the calls that were accepted, in order, so each path
has that of the first accepted call for it, which is the first call for it if its keywords are
literals; and the calls that were refused have had no effect.

A run with any arguments either calls no handler, shows the help once and ends with status 1,
because the line of the arguments is malformed, does not match or leads to keywords that no path
serves; or it calls one handler once, shows nothing and ends with the status that the handler asks
for. The handler is given what was bound, and it is the one of the longest path that is registered,
not empty, and with which the keywords begin. -/
theorem run_registerAll {config : Config} {fresh : CommandLine H}
    (h : CommandLine.ofConfig config = .ok fresh) (calls : List (List Text × H)) :
    (fresh.registerAll calls).handlers = fresh.accepted calls ∧
    fresh.registerAll (fresh.accepted calls) = fresh.registerAll calls ∧
    (∀ path, (fresh.registerAll calls).handler? path = (fresh.accepted calls).lookup path ∧
      (fresh.registerAll calls).handler? path =
        if ∀ keyword ∈ path, keyword ∈ fresh.grammar.literals then calls.lookup path else none) ∧
    ∀ (perform : H → Bindings → Returned) (argv : List Text),
      let program := fresh.registerAll calls
      let report := program.run perform argv
      (program.Unserved argv ∧ report.calls = [] ∧ report.output = fresh.help ++ ['\n'] ∧
        report.status = .ok 1) ∨
      ∃ bindings path handler, program.parse argv = .ok (some bindings) ∧
        program.ServesBest (keywords bindings) path handler ∧
        report.calls = [(handler, bindings)] ∧ report.output = [] ∧
        report.status = (perform handler bindings).status := by
  obtain ⟨tree, htree, rfl⟩ := ofConfig_eq_ok_iff.mp h
  have hprogram := registerAll_eq (⟨config, tree, []⟩ : CommandLine H) calls
  rw [List.nil_append] at hprogram
  refine ⟨by rw [hprogram], registerAll_accepted _ calls, ?_, ?_⟩
  · intro path
    constructor
    · rw [hprogram]
      rfl
    · rw [handler?_registerAll]
      rfl
  · intro perform argv
    rw [hprogram]
    exact cases_of_run (Usage.isComplete_of_compile htree) perform argv

/-- Two overlapping paths, then one that is taken and one that is no path of literals. -/
theorem run_registerAll_overlapping :
    let config : Config := ⟨"p".toList, "install (client | server) | status".toList, false, none⟩
    let calls : List (List Text × Nat) :=
      [(["install".toList], 1), (["install".toList, "server".toList], 2), (["install".toList], 3),
        (["nope".toList], 4)]
    let argv := ["install".toList, "server".toList]
    ∃ fresh, CommandLine.ofConfig config = .ok fresh ∧
      (fresh.registerAll calls).handlers =
        [(["install".toList], 1), (["install".toList, "server".toList], 2)] ∧
      ∃ bindings, (fresh.registerAll calls).parse argv = .ok (some bindings) ∧
        let report := (fresh.registerAll calls).run (fun handler _ => .number handler) argv
        report.calls = [(2, bindings)] ∧ report.output = [] ∧ report.status = .ok 2 := by
  intro config calls argv
  let tree : Node := .choice {}
    [.sequence {} [.literal {} "install".toList,
      .choice {} [.literal {} "client".toList, .literal {} "server".toList]],
      .literal {} "status".toList]
  let fresh : CommandLine Nat := ⟨config, tree, []⟩
  have hfresh : CommandLine.ofConfig config = .ok fresh :=
    ofConfig_eq_ok_iff.mpr ⟨tree, Match.eq_ok_of_toOption (by decide +kernel), rfl⟩
  obtain ⟨hhandlers, -, -, hrun⟩ := run_registerAll hfresh calls
  have hcalled : ((fresh.registerAll calls).run (fun handler _ => .number handler) argv).calls.map
      Prod.fst = [2] := by
    decide +kernel
  refine ⟨fresh, hfresh, hhandlers.trans (by decide), ?_⟩
  rcases hrun (fun handler _ => .number handler) argv with ⟨-, hnone, -⟩ |
    ⟨bindings, path, handler, hparse, -, hcalls, houtput, hstatus⟩
  · rw [hnone] at hcalled
    cases hcalled
  · rw [hcalls] at hcalled
    cases hcalled
    exact ⟨bindings, hparse, hcalls, houtput, hstatus⟩

end CommandLine

end Dispatch

end Synopsis
