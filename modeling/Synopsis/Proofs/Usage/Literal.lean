/-
Synopsis.Proofs.Usage.Literal — literals that are written as usages.

A literal is written as one plain word, whatever its name is, with its marks around the
word, and it is read back with its name and its marks. There is one exception: if the mark
of repetition stands right behind the word and the name ends in a blank, the mark is taken
to be detached, for the blank before it is not seen to be escaped (`tokens_detached`). Such
a usage is refused (`compile_usage_literal`).
-/
import Synopsis.Proofs.Usage.Recompiling

namespace Synopsis

namespace Usage

section Detached

variable {position : Nat} {previous : Option Char} {name : Text}

/-- A mark of repetition at the beginning or behind a blank is detached. -/
theorem tokensFrom_detached (h : previous.all isBlank = true) (rest : Text) :
    tokensFrom position previous (repeatMarker ++ rest) = .error (.detachedMarker position) := by
  have hmarker : startsWithMarker ('.' :: '.' :: '.' :: rest) = true := rfl
  have htake : takeToken position previous '.' ('.' :: '.' :: rest) =
      .error (.detachedMarker position) := by
    unfold takeToken
    rw [if_neg (by decide), if_pos hmarker, if_pos h]
  show tokensFrom position previous ('.' :: '.' :: '.' :: rest) = _
  rw [tokensFrom, if_neg (by decide)]
  split
  · rename_i error herror
    exact congrArg Except.error (Except.error.inj (herror.symm.trans htake))
  · rename_i hok
    cases htake.symm.trans hok

/-- Behind a name that ends in a blank, the mark of repetition is detached, although the blank is
escaped. -/
theorem tokens_detached (hlast : name.getLast?.any isBlank = true) :
    tokens (escapeLiteral name ++ repeatMarker) =
      .error (.detachedMarker (escapeLiteral name).length) := by
  have hne : name ≠ [] := by
    rintro rfl
    cases hlast
  obtain ⟨c, text, heq⟩ := List.exists_cons_of_ne_nil (escapeLiteral_ne_nil hne)
  have hcut : plainTail (escapeLiteral name ++ repeatMarker) = (escapeLiteral name, repeatMarker) :=
    plainTail_escapeLiteral name rfl
  rw [heq] at hcut
  obtain ⟨hblank, htake⟩ := takeToken_of_plainTail 0 none hcut
  have hblankLast : (c :: text).getLast?.all isBlank = true := by
    rw [← heq, getLast?_escapeLiteral]
    cases hend : name.getLast? with
    | none => rfl
    | some last => simpa [hend] using hlast
  have hrest : tokensFrom (0 + (c :: text).length) (c :: text).getLast? repeatMarker =
      .error (.detachedMarker (0 + (c :: text).length)) := tokensFrom_detached hblankLast []
  rw [tokens, heq, List.cons_append, tokensFrom_token hblank htake, hrest, Nat.zero_add]
  rfl

end Detached

/-- The mark of repetition stands right behind the literal's name, which ends in a blank. -/
def detaches (occ : Occurrence) (name : Text) : Bool :=
  occ.repeating && !occ.optional && name.getLast?.any isBlank

theorem markerFits_literal (occ : Occurrence) (name : Text) :
    (Node.literal occ name).markerFits = !detaches occ name := by
  cases hrepeating : occ.repeating <;> cases hoptional : occ.optional <;>
    simp [Node.markerFits, Node.takesMarker, Symbol.takesMarker, detaches, Node.optional,
      Node.repeating, Node.occ, hrepeating, hoptional]

/-- **Literals.** A literal with a name and any marks, written as a usage, compiles to itself, with
its name and its marks. The exception is one that repeats, is not optional and has a name that ends
in a blank: its usage is refused, at the mark of repetition. -/
theorem compile_usage_literal (occ : Occurrence) {name : Text} (hname : name ≠ [])
    (committing : Bool) :
    compile (Node.literal occ name).usage committing =
      if detaches occ name then .error (.detachedMarker (escapeLiteral name).length)
      else .ok (.literal occ name) := by
  unfold compile
  by_cases hdetaches : detaches occ name = true
  · obtain ⟨⟨hrepeating, hoptional⟩, hlast⟩ : (occ.repeating = true ∧ occ.optional = false) ∧
        name.getLast?.any isBlank = true := by
      simpa [detaches] using hdetaches
    have husage : (Node.literal occ name).usage = escapeLiteral name ++ repeatMarker := by
      simp [Node.usage, Node.render, Node.enclose, Node.shownOcc, Node.occ, Node.body,
        Node.isGrouped, hrepeating, hoptional]
    rw [if_pos hdetaches, parse, husage, tokens_detached hlast]
    rfl
  · have hspelled : (Node.literal occ name).isSpelled = true := by
      rw [Node.isSpelled, markerFits_literal]
      simpa using hdetaches
    rw [if_neg hdetaches, parse_usage_reread (.literal hname) hspelled]
    cases committing <;> rfl

/-- A name of a blank, dots and hyphens, once with both marks and once without the square brackets
that keep the blank apart. -/
theorem compile_usage_literal_dots :
    let name := "--[v1]... ".toList
    (Node.literal ⟨true, true⟩ name).usage = "[\\--\\[v1\\]\\.\\.\\.\\ ]...".toList ∧
      compile (Node.literal ⟨true, true⟩ name).usage false = .ok (.literal ⟨true, true⟩ name) ∧
      compile (Node.literal ⟨false, true⟩ name).usage false = .error (.detachedMarker 17) := by
  intro name
  have hname : name ≠ [] := by decide
  exact ⟨by decide, compile_usage_literal ⟨true, true⟩ hname false,
    compile_usage_literal ⟨false, true⟩ hname false⟩

/-- There is a literal that repeats whose usage does not compile. -/
theorem not_forall_compile_usage_literal :
    ¬ ∀ (occ : Occurrence) (name : Text), name ≠ [] →
      compile (Node.literal occ name).usage false = .ok (.literal occ name) := by
  intro h
  have hcompile := h ⟨false, true⟩ "x ".toList (by decide)
  have herror : (compile (Node.literal ⟨false, true⟩ "x ".toList).usage false).toOption = none := by
    decide +kernel
  rw [hcompile] at herror
  cases herror

end Usage

end Synopsis
