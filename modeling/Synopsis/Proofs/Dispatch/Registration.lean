/-
Synopsis.Proofs.Dispatch.Registration — handlers that are registered one after the other.

A call that registers a handler is accepted if its path is free and all keywords are
literals of the usage (`register_eq_ok_iff`); it adds one entry then, and changes nothing
else (`handler?_of_register`). A call that is refused has no effect, so calls have the
effect of those among them that are accepted (`registerAll_accepted`), and each path has
the handler of the first of these that is for it (`handler?_registerAll`).
-/
import Synopsis.Dispatch.CommandLine
import Synopsis.Proofs.Line.Flags

namespace Synopsis

namespace Dispatch

namespace CommandLine

variable {H : Type}

/-! ## §1 One call -/

section Call

variable {commandLine after : CommandLine H} {path : List Text} {handler : H}

/-- A call is accepted if the path has no handler and only literals of the usage. -/
theorem register_eq_ok_iff :
    commandLine.register path handler = .ok after ↔
      commandLine.handler? path = none ∧ (∀ keyword ∈ path, keyword ∈ commandLine.grammar.literals) ∧
        after = { commandLine with handlers := commandLine.handlers ++ [(path, handler)] } := by
  have hunknown : path.filter (!commandLine.grammar.literals.contains ·) = [] ↔
      ∀ keyword ∈ path, keyword ∈ commandLine.grammar.literals := by
    simp
  unfold register
  cases hhandler : commandLine.handler? path with
  | some other => simp
  | none =>
    cases hfilter : path.filter (!commandLine.grammar.literals.contains ·) with
    | nil =>
      have hknown := hunknown.mp hfilter
      simp only [Option.isSome_none, Bool.false_eq_true, if_false, Except.ok.injEq, true_and]
      exact ⟨fun h => ⟨hknown, h.symm⟩, fun h => h.2.symm⟩
    | cons keyword unknown =>
      have hnot : ¬ ∀ keyword ∈ path, keyword ∈ commandLine.grammar.literals := by
        rw [← hunknown, hfilter]
        simp
      simp [hnot]

/-- The path has the handler afterwards, and the other paths are left alone. -/
theorem handler?_of_register (h : commandLine.register path handler = .ok after)
    (other : List Text) :
    after.handler? other = if other = path then some handler else commandLine.handler? other := by
  obtain ⟨hfree, -, rfl⟩ := register_eq_ok_iff.mp h
  unfold handler? at hfree ⊢
  rw [List.lookup_append, lookup_cons_eq_ite]
  by_cases heq : other = path
  · subst heq
    simp [hfree]
  · simp [heq]

end Call

/-! ## §2 Many calls -/

/-- The program after the calls, those that are refused being passed over. -/
def registerAll (commandLine : CommandLine H) : List (List Text × H) → CommandLine H
  | [] => commandLine
  | (path, handler) :: calls =>
    match commandLine.register path handler with
    | .error _ => commandLine.registerAll calls
    | .ok after => after.registerAll calls

/-- The calls that are accepted when all are made one after the other. -/
def accepted (commandLine : CommandLine H) : List (List Text × H) → List (List Text × H)
  | [] => []
  | (path, handler) :: calls =>
    match commandLine.register path handler with
    | .error _ => commandLine.accepted calls
    | .ok after => (path, handler) :: after.accepted calls

variable (commandLine : CommandLine H) (calls : List (List Text × H))

/-- The calls change nothing but the handlers, to which those that are accepted are added. -/
theorem registerAll_eq :
    commandLine.registerAll calls =
      { commandLine with handlers := commandLine.handlers ++ commandLine.accepted calls } := by
  induction calls generalizing commandLine with
  | nil => simp [registerAll, accepted]
  | cons call calls ih =>
    obtain ⟨path, handler⟩ := call
    unfold registerAll accepted
    cases hregister : commandLine.register path handler with
    | error error => exact ih commandLine
    | ok after =>
      obtain ⟨-, -, rfl⟩ := register_eq_ok_iff.mp hregister
      simp only [ih, List.append_assoc, List.singleton_append]

/-- The calls that are accepted are all accepted when they alone are made. -/
theorem accepted_accepted :
    commandLine.accepted (commandLine.accepted calls) = commandLine.accepted calls := by
  induction calls generalizing commandLine with
  | nil => rfl
  | cons call calls ih =>
    obtain ⟨path, handler⟩ := call
    cases hregister : commandLine.register path handler with
    | error error => simpa [accepted, hregister] using ih commandLine
    | ok after => simp [accepted, hregister, ih after]

/-- Calls that are refused have no effect. -/
theorem registerAll_accepted :
    commandLine.registerAll (commandLine.accepted calls) = commandLine.registerAll calls := by
  rw [registerAll_eq, registerAll_eq, accepted_accepted]

/-- A path keeps its handler, or gets the one of the first call for it, if its keywords are
literals. -/
theorem handler?_registerAll (path : List Text) :
    (commandLine.registerAll calls).handler? path =
      (commandLine.handler? path).or
        (if ∀ keyword ∈ path, keyword ∈ commandLine.grammar.literals then calls.lookup path
          else none) := by
  induction calls generalizing commandLine with
  | nil => simp [registerAll]
  | cons call calls ih =>
    obtain ⟨path', handler⟩ := call
    unfold registerAll
    cases hregister : commandLine.register path' handler with
    | ok after =>
      obtain ⟨hfree, hknown, hafter⟩ := register_eq_ok_iff.mp hregister
      have hgrammar : after.grammar = commandLine.grammar := by rw [hafter]
      simp only [ih, handler?_of_register hregister, hgrammar, lookup_cons_eq_ite]
      by_cases heq : path = path'
      · subst heq
        rw [if_pos rfl, if_pos rfl, if_pos hknown, if_pos hknown, hfree]
        rfl
      · rw [if_neg heq, if_neg heq]
    | error error =>
      simp only [ih, lookup_cons_eq_ite]
      by_cases heq : path = path'
      · subst heq
        -- the path was refused: it is taken or has a keyword that is no literal
        cases htaken : commandLine.handler? path with
        | some other => simp
        | none =>
          have hnot : ¬ ∀ keyword ∈ path, keyword ∈ commandLine.grammar.literals := by
            intro hknown
            cases hregister.symm.trans (register_eq_ok_iff.mpr ⟨htaken, hknown, rfl⟩)
          rw [if_neg hnot, if_neg hnot]
      · rw [if_neg heq]

end CommandLine

end Dispatch

end Synopsis
