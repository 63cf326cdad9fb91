/-
Synopsis.Proofs.Console — the tool that matches a line is transparent.

The tool is given a usage and a line as arguments. They are quoted and joined to a command
line, read from it, matched against the usage of the program itself and found again among
the bindings. On this way no character of them is changed: they may be any texts but flags,
and what the program answers is what matching the one against the other comes to
(`answers_run`).

Three things are between. What the cache keeps for a request is what the request compiles
to (`Cache.Sound`). The usage of the program is matched by these arguments whatever the two
texts are (`judge_grammar`); this is evaluated with the texts as variables, for a parameter
takes any word. And the events on the way are not heard, unless all are wanted
(`errorText_after`).
-/
import Synopsis.Console
import Synopsis.Proofs.Dispatch.Joining
import Synopsis.Proofs.Dispatch.Runs
import Synopsis.Proofs.Match.Agreement
import Synopsis.Proofs.Match.Greedy
import Synopsis.Proofs.Match.Rereading

namespace Synopsis

open Dispatch (CommandLine)
open Match (Bindings)

/-! ## §1 What is kept -/

namespace Usage

/-- What is kept for a request is what the request is answered with. -/
def Cache.Sound (cache : Cache) : Prop :=
  ∀ request tree, (request, tree) ∈ cache.entries → request.compile = .ok tree

namespace Cache

theorem sound_empty : Sound {} := by
  intro request tree h
  cases h

section Sound

variable {cache : Cache} {request : Request}

theorem Sound.compile_of_get? {tree : Node} (h : cache.Sound) (hget : cache.get? request = some tree) :
    request.compile = .ok tree := by
  obtain ⟨before, behind, hentries, -⟩ := List.lookup_eq_some_iff.mp hget
  exact h request tree (by simp [hentries])

theorem Sound.put {tree : Node} (h : cache.Sound) (hcompile : request.compile = .ok tree) :
    (cache.put request tree).Sound := by
  intro other tree' hmem
  rcases List.mem_cons.mp (List.mem_of_mem_take hmem) with heq | hmem
  · cases heq
    exact hcompile
  · exact h other tree' (List.mem_of_mem_filter hmem)

/-- The answer does not depend on what is kept. -/
theorem Sound.fst_compile (h : cache.Sound) : (cache.compile request).1 = request.compile := by
  unfold compile
  split
  · rename_i tree hget
    exact (h.compile_of_get? hget).symm
  · split
    · rename_i hcompile
      exact hcompile.symm
    · rename_i hcompile
      exact hcompile.symm

theorem Sound.compile (h : cache.Sound) : (cache.compile request).2.2.Sound := by
  unfold Cache.compile
  split
  · rename_i tree hget
    exact h.put (h.compile_of_get? hget)
  · split
    · exact h
    · rename_i hcompile
      exact h.put hcompile

end Sound

end Cache

end Usage

/-! ## §2 What is not heard -/

def Quiet (events : List Event) : Prop := ∀ event ∈ events, event.level = .debug

theorem quiet_nil : Quiet [] := by
  intro event hevent
  cases hevent

theorem Quiet.append {events others : List Event} (h : Quiet events) (hothers : Quiet others) :
    Quiet (events ++ others) := by
  intro event hevent
  exact (List.mem_append.mp hevent).elim (h event) (hothers event)

theorem quiet_observeCompile (usage : Text) (committing : Bool) :
    Quiet (Usage.observeCompile usage committing).2 := by
  unfold Usage.observeCompile
  split
  · exact quiet_nil
  · refine Quiet.append ?_ (by simp [Quiet, Event.level])
    intro event hevent
    obtain ⟨change, -, rfl⟩ := List.mem_map.mp hevent
    rfl

theorem quiet_observe (cache : Usage.Cache) (request : Usage.Request) :
    Quiet (cache.observe request).2.1 := by
  unfold Usage.Cache.observe
  simp only
  split
  · exact quiet_observeCompile _ _
  · exact quiet_nil

theorem quiet_observeMatch (tree : Node) (line : Text) : Quiet (Match.observeMatch tree line).2 := by
  unfold Match.observeMatch
  split
  · exact quiet_nil
  · simp only
    split
    · simp [Quiet, Event.level]
    · rename_i verdict _
      cases verdict <;> simp [Quiet, Match.Verdict.events, Event.level]

/-- Only a line that is malformed is warned of. -/
theorem quiet_decide {H : Type} {commandLine : Dispatch.CommandLine H} {argv : List Text}
    (h : ∀ error, commandLine.parse argv ≠ .error (.malformed error)) :
    Quiet (commandLine.decide argv).2 := by
  have hquiet := quiet_observeMatch commandLine.grammar (Dispatch.joinArguments argv)
  have hparse := Match.fst_observeMatch commandLine.grammar (Dispatch.joinArguments argv)
  unfold Dispatch.CommandLine.decide
  simp only
  generalize Match.observeMatch commandLine.grammar (Dispatch.joinArguments argv) = observed
    at hquiet hparse
  obtain ⟨found, events⟩ := observed
  cases found with
  | error failure =>
    cases failure with
    | malformed error => exact absurd hparse.symm (h error)
    | fault fault => exact hquiet
  | ok found =>
    cases found with
    | none => exact hquiet
    | some bindings =>
      simp only
      split
      · exact hquiet
      · exact hquiet.append (by simp [Quiet, Event.level])

namespace Console

/-- Quiet events are not heard unless all are wanted. -/
theorem errorText_after {argv : List Text} {events : List Event} (h : Quiet events)
    (hverbose : argv.contains debugArgument = false) (outcome : Outcome) :
    errorText argv (outcome.after events) = errorText argv outcome := by
  have hnothing : (events.map Notice.event).flatMap (Notice.text false) = [] := by
    rw [List.flatMap_eq_nil_iff]
    intro notice hnotice
    obtain ⟨event, hevent, rfl⟩ := List.mem_map.mp hnotice
    simp [Notice.text, isHeard, h event hevent]
  rw [errorText, errorText, hverbose, Outcome.after, List.flatMap_append, hnothing, List.nil_append]

/-! ## §3 The usage of the program -/

section Grammar

open Match

def optionalFlag (key : Text) : Node := .flag ⟨true, false⟩ key

/-- The part of the usage for printing a usage. -/
def renderGrammar : Node :=
  .sequence {} [.literal {} "render".toList, .parameter {} "usage".toList,
    optionalFlag committingKey]

/-- The part of the usage for matching a line. -/
def matchGrammar : Node :=
  .sequence {} [.literal {} "match".toList, .parameter {} "usage".toList,
    .parameter {} "input".toList, optionalFlag committingKey]

def toolGrammar : Node := .choice {} [.literal {} "help".toList, renderGrammar, matchGrammar]

def grammar : Node := .sequence {} [optionalFlag "debug".toList, toolGrammar]

theorem compile_usage : Usage.compile config.usage config.committing = .ok grammar :=
  eq_ok_of_toOption (by decide +kernel)

/-- The arguments for matching a line. -/
def matchArguments (usage line : Text) (committing : Bool) : List Text :=
  ["match".toList, usage, line] ++ if committing then ["--fix-ambiguity".toList] else []

def matchFlags (committing : Bool) : FlagTable :=
  if committing then [(committingKey, none)] else []

def matchBindings (usage line : Text) (committing : Bool) : Bindings :=
  ⟨[("unnamed_0".toList, some "match".toList), ("usage".toList, some usage),
    ("input".toList, some line)] ++ matchFlags committing⟩

variable (usage line : Text) (committing : Bool)

/-- The line of the arguments, but for the places of its words. -/
def asRead : Line.Parsed :=
  ⟨["match".toList, usage, line].map fun word => ⟨0, 0, some word⟩, matchFlags committing⟩

def recorded : Trail :=
  ⟨[("unnamed_0".toList, some "match".toList), ("usage".toList, some usage),
    ("input".toList, some line)], (matchFlags committing).keys⟩

/-- An element without marks that takes all words is there once. -/
theorem process_of_upTo {read : Line.Parsed} {node : Node} {token next : Nat} {last : Bool}
    {memory after : Memory} (hmarks : node.occ = {})
    (hattempt : attempt read node token last memory = (.upTo next, after))
    (hall : read.words.length ≤ next) :
    (slotOf read node).process read.words.length token last none memory =
      (.reached next 1, after) := by
  have hslot : (slotOf read node).attempt token last memory = (.upTo next, after) := hattempt
  rw [Slot.process_once (by simp [slotOf, hmarks]), Slot.once, hslot]
  simp [Slot.settle, hall]

theorem attempt_renderGrammar :
    attempt (asRead usage line committing) renderGrammar 0 true {} = (.refused, {}) := by
  rw [renderGrammar, attempt_sequence, allOf_eq_descend]
  rfl

/-- The two texts are taken by parameters, which do not look at them, so they are variables here. -/
theorem attempt_matchGrammar :
    attempt (asRead usage line committing) matchGrammar 0 true {} =
      (.upTo 3, ⟨recorded usage line committing, []⟩) := by
  rw [matchGrammar, attempt_sequence, allOf_eq_descend]
  cases committing <;> rfl

/-- The first word tells the tools apart. -/
theorem attempt_toolGrammar :
    attempt (asRead usage line committing) toolGrammar 0 true {} =
      (.upTo 3, ⟨recorded usage line committing, []⟩) := by
  have hothers : firstOf (asRead usage line committing).words.length 0 true {}
      ([.literal {} "help".toList, renderGrammar].map (slotOf (asRead usage line committing))) =
        (.refused, {}) := by
    refine firstOf_of_failed fun node hnode => ?_
    rcases List.mem_cons.mp hnode with rfl | hnode
    · exact process_of_refused rfl rfl none
    · obtain rfl := List.mem_singleton.mp hnode
      have hrefused := congrArg Prod.fst (attempt_renderGrammar usage line committing)
      exact process_of_refused rfl hrefused none
  have hmatch := process_of_upTo rfl (attempt_matchGrammar usage line committing) (Nat.le_refl 3)
  have halternatives : ([.literal {} "help".toList, renderGrammar, matchGrammar] : List Node) =
      [.literal {} "help".toList, renderGrammar] ++ [matchGrammar] := rfl
  rw [toolGrammar, attempt_choice, halternatives, List.map_append,
    firstOf_append (List.forall_mem_map.mpr fun node _ => lawful_matcher _ node),
    hothers, orTry_of_eq rfl, List.map_singleton, firstOf, hmatch]

/-- Behind the flag that was not given the tools are all that is left. -/
theorem descend_toolGrammar :
    descend (asRead usage line committing).words.length true
      [slotOf (asRead usage line committing) toolGrammar] 0 {} =
        (.upTo 3, ⟨recorded usage line committing, []⟩) := by
  have homissible : (slotOf (asRead usage line committing) toolGrammar).omissible? =
      some false := rfl
  have htool := process_of_upTo rfl (attempt_toolGrammar usage line committing) (Nat.le_refl 3)
  rw [descend, homissible]
  simp only [List.isEmpty_nil, Bool.and_self, htool]
  rfl

theorem attempt_grammar :
    attempt (asRead usage line committing) grammar 0 true {} =
      (.upTo 3, ⟨recorded usage line committing, []⟩) := by
  have hdebug : (slotOf (asRead usage line committing) (optionalFlag "debug".toList)).process
      (asRead usage line committing).words.length 0
      (true && [slotOf (asRead usage line committing) toolGrammar].isEmpty) none {} =
        (.reached 0 0, {}) := by
    cases committing <;> rfl
  rw [grammar, attempt_sequence, allOf_eq_descend]
  refine (descend_flag rfl hdebug (Nat.zero_le 1)).trans ?_
  rw [behind, descend_toolGrammar]
  rfl

/-- The arguments fit the usage of the program, whatever the usage and the line are that they
give. -/
theorem judge_grammar :
    judge grammar (asRead usage line committing) =
      .ok (.fits (matchBindings usage line committing)) := by
  have hprocess := process_of_upTo rfl (attempt_grammar usage line committing) (Nat.le_refl 3)
  rw [judge, process, hprocess]
  cases committing <;> rfl

end Grammar

/-! ## §4 Arguments that are found again -/

section Arguments

variable {usage line : Text}

/-- A text that begins with two hyphens only if it is nothing else is no flag. -/
theorem isFlagArgument_eq_false {word : Text}
    (h : startsWithHyphens word = true → word = "--".toList) :
    Dispatch.isFlagArgument word = false := by
  cases hhyphens : startsWithHyphens word with
  | false => simp [Dispatch.isFlagArgument, hhyphens]
  | true =>
    rw [h hhyphens]
    rfl

/-- The arguments are read as three words and perhaps a flag. -/
theorem exists_read_matchArguments (husage : Dispatch.isFlagArgument usage = false)
    (hline : Dispatch.isFlagArgument line = false) (committing : Bool) :
    ∃ read, Line.read (.whole (Dispatch.joinArguments (matchArguments usage line committing))) =
        .ok read ∧
      Match.Agrees read (asRead usage line committing) ∧
      read.flags = matchFlags committing := by
  have hnone : ∀ word ∈ ["match".toList, usage, line], Dispatch.isFlagArgument word = false := by
    simp only [List.forall_mem_cons, husage, hline]
    exact ⟨rfl, trivial, trivial, by simp⟩
  have hkeys : ∀ argument ∈ matchArguments usage line committing,
      Dispatch.isFlagArgument argument = true → Dispatch.HasKey argument := by
    intro argument hargument hflag
    rcases List.mem_append.mp hargument with hword | hcommitting
    · cases (hnone argument hword).symm.trans hflag
    · cases committing with
      | false => cases hcommitting
      | true =>
        rw [List.mem_singleton.mp hcommitting]
        decide
  have hwords : (matchArguments usage line committing).filter (!Dispatch.isFlagArgument ·) =
      ["match".toList, usage, line] := by
    rw [matchArguments, List.filter_append,
      List.filter_eq_self.mpr fun word hword => by simp [hnone word hword]]
    cases committing <;> rfl
  have htable : FlagTable.ofList
      (Dispatch.flagsOfArguments (matchArguments usage line committing)) = matchFlags committing := by
    rw [Dispatch.flagsOfArguments, matchArguments, List.filter_append,
      List.filter_eq_nil_iff.mpr fun word hword => by simp [hnone word hword]]
    cases committing <;> rfl
  obtain ⟨read, hread, htexts, hflags⟩ := Dispatch.exists_read_joinArguments hkeys
  rw [hwords] at htexts
  rw [htable] at hflags
  exact ⟨read, hread, Match.agrees_of_texts htexts rfl fun key => by rw [hflags]; rfl, hflags⟩

/-- They bind the usage and the line to the names of the parameters. -/
theorem parse_matchArguments (husage : Dispatch.isFlagArgument usage = false)
    (hline : Dispatch.isFlagArgument line = false) (committing : Bool) :
    Match.parse grammar (Dispatch.joinArguments (matchArguments usage line committing)) =
      .ok (some (matchBindings usage line committing)) := by
  obtain ⟨read, hread, hagrees, hflags⟩ := exists_read_matchArguments husage hline committing
  rw [Match.parse_eq_of_read hread, Match.judge_eq_of_agrees hagrees hflags, judge_grammar]
  rfl

/-- They are handed to the tool that matches a line. -/
theorem fst_decide_matchArguments (husage : Dispatch.isFlagArgument usage = false)
    (hline : Dispatch.isFlagArgument line = false) (committing : Bool) :
    ((⟨config, grammar, handlers⟩ : CommandLine Tool).decide
        (matchArguments usage line committing)).1 =
      .ok (.handle ["match".toList] .matchLine (matchBindings usage line committing)) := by
  have hparse := parse_matchArguments husage hline committing
  have hresolve : (⟨config, grammar, handlers⟩ : CommandLine Tool).resolve
      (matchBindings usage line committing) = some (["match".toList], .matchLine) := by
    cases committing <;> rfl
  rw [CommandLine.fst_decide, CommandLine.parse, hparse, CommandLine.decisionOn, hresolve]

end Arguments

/-! ## §5 What is answered -/

/-- The status, the output and the error output for a usage and a line: what is wrong with the one
or the other, that they do not match, or what is bound. -/
inductive Answers (usage : Text) (committing : Bool) (line : Text) : Int → Text → Text → Prop where
  | badUsage {error : UsageError} (hcompile : Usage.compile usage committing = .error error) :
    Answers usage committing line 2 [] ((error.diagnostic usage).message ++ ['\n'])
  | badLine {tree : Node} {error : LineError}
    (hcompile : Usage.compile usage committing = .ok tree)
    (hparse : Match.parse tree line = .error (.malformed error)) :
    Answers usage committing line 2 [] ((error.diagnostic line).message ++ ['\n'])
  | mismatch {tree : Node} (hcompile : Usage.compile usage committing = .ok tree)
    (hparse : Match.parse tree line = .ok none) :
    Answers usage committing line 1 [] "no match\n".toList
  | fits {tree : Node} {bindings : Bindings}
    (hcompile : Usage.compile usage committing = .ok tree)
    (hparse : Match.parse tree line = .ok (some bindings)) :
    Answers usage committing line 0 (Json.table bindings.table ++ ['\n']) []

section Answers

variable {usage line : Text} {committing : Bool} {argv : List Text}

/-- A problem is all that is written of a run that has nothing else to say. -/
theorem errorText_problem (argv : List Text) (status : Int) (text : Text) :
    errorText argv (.problem status text) = text ++ ['\n'] := by
  simp [errorText, Outcome.problem, Notice.text]

/-- The tool answers for the usage and the line that it is given. -/
theorem answers_matchLine {tree : Node} (hcompile : Usage.compile usage committing = .ok tree)
    (hverbose : argv.contains debugArgument = false) :
    Answers usage committing line (matchLine tree line).status (matchLine tree line).output
      (errorText argv (matchLine tree line)) := by
  have hquiet := quiet_observeMatch tree line
  have hparse := Match.fst_observeMatch tree line
  have hcases := Match.cases_of_parse_whole (Usage.isComplete_of_compile hcompile) line
  unfold matchLine
  generalize Match.observeMatch tree line = observed at hquiet hparse
  obtain ⟨result, events⟩ := observed
  simp only at hquiet hparse ⊢
  rw [errorText_after hquiet hverbose]
  rcases hcases with ⟨error, herror⟩ | ⟨found, hfound⟩
  · obtain rfl := hparse.trans herror
    rw [errorText_problem]
    exact .badLine hcompile herror
  · obtain rfl := hparse.trans hfound
    cases found with
    | none =>
      rw [errorText_problem]
      exact .mismatch hcompile hfound
    | some bindings => exact .fits hcompile hfound

/-- What the tool is asked for is answered, whatever was compiled before. -/
theorem answers_perform {cache : Usage.Cache} (hcache : cache.Sound)
    (hverbose : argv.contains debugArgument = false) :
    let outcome := perform cache .matchLine (matchBindings usage line committing)
    Answers usage committing line outcome.status outcome.output (errorText argv outcome) := by
  intro outcome
  have husage : argument (matchBindings usage line committing) "usage" = usage := by
    cases committing <;> rfl
  have hline : argument (matchBindings usage line committing) "input" = line := by
    cases committing <;> rfl
  have hflag : (matchBindings usage line committing).contains committingKey = committing := by
    cases committing <;> rfl
  have hquiet := quiet_observe cache ⟨usage, some committing⟩
  have hfst : (cache.observe ⟨usage, some committing⟩).1 = Usage.compile usage committing :=
    (Usage.fst_observe cache _).trans hcache.fst_compile
  unfold outcome perform
  simp only [husage, hline, hflag]
  generalize cache.observe ⟨usage, some committing⟩ = observed at hquiet hfst
  obtain ⟨result, events, after⟩ := observed
  simp only at hquiet hfst ⊢
  rw [errorText_after hquiet hverbose]
  cases result with
  | error error =>
    rw [errorText_problem]
    exact .badUsage hfst.symm
  | ok tree => exact answers_matchLine hfst.symm hverbose

/-- A run whose arguments are handed to a tool comes to what the tool does. -/
theorem exists_run_eq {path : List Text} {tool : Tool} {bindings : Bindings}
    (hdecide : ((⟨config, grammar, handlers⟩ : CommandLine Tool).decide argv).1 =
      .ok (.handle path tool bindings)) :
    ∃ (cache : Usage.Cache) (events : List Event), cache.Sound ∧ Quiet events ∧
      run argv = (perform cache tool bindings).after
        (events ++ ((⟨config, grammar, handlers⟩ : CommandLine Tool).decide argv).2) := by
  have hquiet := quiet_observe {} ⟨config.usage, some config.committing⟩
  have hsound : (Usage.Cache.observe {} ⟨config.usage, some config.committing⟩).2.2.Sound :=
    Usage.Cache.sound_empty.compile
  have hfst : (Usage.Cache.observe {} ⟨config.usage, some config.committing⟩).1 = .ok grammar :=
    Usage.Cache.sound_empty.fst_compile.trans compile_usage
  unfold run
  generalize Usage.Cache.observe {} ⟨config.usage, some config.committing⟩ = observed
    at hquiet hsound hfst
  obtain ⟨compiled, events, cache⟩ := observed
  obtain rfl : compiled = .ok grammar := hfst
  refine ⟨cache, events, hsound, hquiet, ?_⟩
  simp only [hdecide]

theorem ne_debugArgument {word : Text} (h : startsWithHyphens word = true → word = "--".toList) :
    word ≠ debugArgument := by
  rintro rfl
  exact absurd (h rfl) (by decide)

/-- The arguments do not ask for all events. -/
theorem contains_debugArgument (husage : startsWithHyphens usage = true → usage = "--".toList)
    (hline : startsWithHyphens line = true → line = "--".toList) (committing : Bool) :
    (matchArguments usage line committing).contains debugArgument = false := by
  have hwords : debugArgument ∉ ["match".toList, usage, line] := by
    simp only [List.mem_cons, List.not_mem_nil, or_false, not_or]
    exact ⟨by decide, (ne_debugArgument husage).symm, (ne_debugArgument hline).symm⟩
  have hflags : debugArgument ∉ if committing then ["--fix-ambiguity".toList] else [] := by
    cases committing <;> decide
  have hnone : debugArgument ∉ matchArguments usage line committing := fun hmem =>
    (List.mem_append.mp hmem).elim hwords hflags
  simpa using hnone

/-- **The tool that matches a line is transparent.** Given a usage and a line that are no flags, and
perhaps the flag that commits the usage, the program answers what compiling just this usage and
matching just this line comes to. -/
theorem answers_run (husage : startsWithHyphens usage = true → usage = "--".toList)
    (hline : startsWithHyphens line = true → line = "--".toList) (committing : Bool) :
    Answers usage committing line (run (matchArguments usage line committing)).status
      (run (matchArguments usage line committing)).output
      (errorText (matchArguments usage line committing)
        (run (matchArguments usage line committing))) := by
  have hdecide := fst_decide_matchArguments (isFlagArgument_eq_false husage)
    (isFlagArgument_eq_false hline) committing
  have hevents : Quiet ((⟨config, grammar, handlers⟩ : CommandLine Tool).decide
      (matchArguments usage line committing)).2 := by
    refine quiet_decide fun error herror => ?_
    cases (parse_matchArguments (isFlagArgument_eq_false husage)
      (isFlagArgument_eq_false hline) committing).symm.trans herror
  obtain ⟨cache, events, hcache, hquiet, hrun⟩ := exists_run_eq hdecide
  have hverbose := contains_debugArgument husage hline committing
  rw [hrun, errorText_after (hquiet.append hevents) hverbose]
  exact answers_perform hcache hverbose

/-- A usage and a line full of quotes and backslashes, and both may be two hyphens. -/
theorem answers_run_quoted :
    (startsWithHyphens "\"a\\b\" [--k=<v>]".toList = true →
      "\"a\\b\" [--k=<v>]".toList = "--".toList) ∧
    (startsWithHyphens "--".toList = true → "--".toList = "--".toList) ∧
    Answers "\"a\\b\" [--k=<v>]".toList true "--".toList
      (run (matchArguments "\"a\\b\" [--k=<v>]".toList "--".toList true)).status
      (run (matchArguments "\"a\\b\" [--k=<v>]".toList "--".toList true)).output
      (errorText (matchArguments "\"a\\b\" [--k=<v>]".toList "--".toList true)
        (run (matchArguments "\"a\\b\" [--k=<v>]".toList "--".toList true))) := by
  have husage : startsWithHyphens "\"a\\b\" [--k=<v>]".toList = true →
      "\"a\\b\" [--k=<v>]".toList = "--".toList := by
    decide
  have hline : startsWithHyphens "--".toList = true → "--".toList = "--".toList := fun _ => rfl
  exact ⟨husage, hline, answers_run husage hline true⟩

end Answers

end Console

end Synopsis
