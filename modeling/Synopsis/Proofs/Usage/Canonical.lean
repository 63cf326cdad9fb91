/-
Synopsis.Proofs.Usage.Canonical — trees that compile to themselves.

A canonical tree is one that could have been compiled from a usage, and of those with
the same meaning it is the one that is read back: its keys need no escapes, its
literals do not end in a blank, no flag's value repeats, and a choice that does not
repeat stands last where it is an alternative itself. Written as a usage, a canonical
tree compiles to itself (`compile_usage_of_canonical`).
-/
import Synopsis.Node.Equality
import Synopsis.Proofs.Usage.Recompiling

namespace Synopsis

namespace Node

/-! ## §1 Canonical trees -/

/-- The key is written as it is, and a repetition marker may stand behind it. -/
structure CanonicalKey (key : Text) : Prop where
  nonempty : key ≠ []
  plain : Usage.isPlainKey key = true
  last : key.getLast? ≠ some '.'

def isSingleChoice : Node → Bool
  | .choice occ _ => !occ.repeating
  | _ => false

/-- The node is a literal, a parameter or a group. -/
def isFixed : Node → Bool
  | .literal _ _ | .parameter _ _ | .sequence _ _ | .choice _ _ => true
  | _ => false

/-- The tree is the one that is read back of those with its meaning. -/
inductive Canonical : Node → Prop where
  | literal {occ : Occurrence} {name : Text} (hname : name ≠ [])
    (hlast : name.getLast?.all (!isBlank ·) = true) : Canonical (.literal occ name)
  | parameter {occ : Occurrence} {name : Text} (hname : '>' ∉ name) :
    Canonical (.parameter occ name)
  | flag {occ : Occurrence} {key : Text} (hkey : CanonicalKey key) : Canonical (.flag occ key)
  | setting {occ : Occurrence} {key : Text} {value : Node} (hkey : CanonicalKey key)
    (hvalue : Canonical value) (hfixed : value.isFixed = true)
    (hrepeating : value.repeating = false) : Canonical (.setting occ key value)
  | sequence {occ : Occurrence} {children : List Node} (hlength : 2 ≤ children.length)
    (hchildren : ∀ child ∈ children, Canonical child)
    (hfilled : ∀ child ∈ children, child.isEmpty = false)
    (hoptional : (∀ child ∈ children, child.optional = true) → occ.optional = true) :
    Canonical (.sequence occ children)
  | choice {occ : Occurrence} {alternatives : List Node} (hlength : 2 ≤ alternatives.length)
    (halternatives : ∀ alternative ∈ alternatives, Canonical alternative)
    (hfilled : ∀ alternative ∈ alternatives, alternative.isEmpty = false)
    (hoptional : ∀ alternative ∈ alternatives, alternative.optional = true → occ.optional = true)
    (hlast : ∀ alternative ∈ alternatives.dropLast, alternative.isSingleChoice = false) :
    Canonical (.choice occ alternatives)
  | nothing : Canonical .nothing

theorem Canonical.regular {node : Node} (h : node.Canonical) : node.Regular := by
  induction h with
  | literal hname => exact .literal hname
  | parameter hname => exact .parameter hname
  | flag hkey => exact .flag hkey.nonempty
  | setting hkey _ _ _ ih => exact .setting hkey.nonempty ih
  | sequence hlength _ hfilled hoptional ih => exact .sequence hlength ih hfilled hoptional
  | choice hlength _ hfilled hoptional _ ih => exact .choice hlength ih hfilled hoptional
  | nothing => exact .nothing

/-- A marker may stand behind every canonical node. -/
theorem Canonical.takesMarker {node : Node} (h : node.Canonical) : node.takesMarker = true := by
  induction h with
  | @literal _ name _ hlast =>
    cases hend : name.getLast? with
    | none => simp [Node.takesMarker, Usage.Symbol.takesMarker, hend]
    | some c => simpa [Node.takesMarker, Usage.Symbol.takesMarker, hend] using hlast
  | flag hkey => simpa [Node.takesMarker, Usage.Symbol.takesMarker] using hkey.last
  | setting _ _ _ _ ih => simp [Node.takesMarker, ih]
  | _ => rfl

theorem Canonical.markerFits {node : Node} (h : node.Canonical) : node.markerFits = true := by
  simp [Node.markerFits, h.takesMarker]

theorem Canonical.isSpelled {node : Node} (h : node.Canonical) : node.isSpelled = true := by
  have hmarker := h.markerFits
  induction h with
  | literal => exact hmarker
  | parameter => rfl
  | flag hkey => simp [Node.isSpelled, hkey.plain, hmarker]
  | @setting occ key value hkey hvalue hfixed hrepeating ih =>
    have hplain : value.isPlainValue = true := by
      cases value <;> first | cases hfixed; done | simp [isPlainValue, hrepeating]
    simp [Node.isSpelled, hkey.plain, hmarker, hplain, ih hvalue.markerFits]
  | sequence _ hchildren _ _ ih =>
    exact areSpelled_iff.mpr fun child hchild => ih child hchild (hchildren child hchild).markerFits
  | choice _ halternatives _ _ _ ih =>
    exact areSpelled_iff.mpr fun node hnode => ih node hnode (halternatives node hnode).markerFits
  | nothing => rfl

/-! ## §2 What is read back of them -/

theorem rowAlternatives_of_not_isSingleChoice {node : Node} (h : node.isSingleChoice = false) :
    Usage.rowAlternatives node = [node] := by
  cases node with
  | choice occ alternatives =>
    have hrepeating : occ.repeating = true := by simpa [isSingleChoice] using h
    rw [Usage.rowAlternatives, if_pos hrepeating]
  | _ => rfl

/-- Alternatives of which only the last one may be a choice that does not repeat are kept. -/
theorem spread_eq_self {nodes : List Node}
    (h : ∀ node ∈ nodes.dropLast, node.isSingleChoice = false) : spread nodes = nodes := by
  fun_induction spread nodes with
  | case1 => rfl
  | case2 => rfl
  | case3 node next nodes ih =>
    rw [rowAlternatives_of_not_isSingleChoice (h node (by simp)),
      ih fun other hother => h other (by simp [hother])]
    rfl

theorem rereadAll_eq_self {nodes : List Node} (h : ∀ node ∈ nodes, node.reread = node) :
    rereadAll nodes = nodes := by
  rw [rereadAll_eq_map]
  exact (List.map_congr_left h).trans nodes.map_id

/-- A canonical tree is what is read back of it. -/
theorem Canonical.reread_eq {node : Node} (h : node.Canonical) : node.reread = node := by
  induction h with
  | @setting occ key value _ _ _ hrepeating ih =>
    have hvalue : value.setRepeating false = value := by
      have hocc : ({ value.occ with repeating := false } : Occurrence) = value.occ := by
        rw [← hrepeating]
        rfl
      rw [setRepeating, hocc, withOcc_occ]
    rw [reread, ih, hvalue, hrepeating, Bool.or_false]
  | sequence _ hchildren _ hoptional ih =>
    rw [reread_sequence (fun child h => (hchildren child h).regular.rereadSpec) hoptional,
      rereadAll_eq_self ih]
  | choice _ halternatives hfilled hoptional hlast ih =>
    rw [reread_choice (fun node h => (halternatives node h).regular.rereadSpec) hfilled hoptional,
      rereadAll_eq_self ih, spread_eq_self hlast,
      List.filter_eq_self.mpr fun node h => by simp [hfilled node h]]
  | _ => rfl

end Node

namespace Usage

/-- **Round trip.** A canonical tree that is written as a usage compiles to itself. -/
theorem compile_usage_of_canonical {tree : Node} (h : tree.Canonical) :
    compile tree.usage false = .ok tree := by
  rw [compile, parse_usage_reread h.regular.formed h.isSpelled, h.reread_eq]
  rfl

/-- A tree with marks on most of its nodes, with a blank, dots and hyphens in literals, and with a
choice as its last alternative. -/
theorem compile_usage_release :
    let tree : Node := .choice ⟨true, false⟩
      [.sequence ⟨true, true⟩
        [.literal ⟨true, false⟩ "v1.".toList,
          .setting ⟨true, false⟩ "mode".toList
            (.choice ⟨true, false⟩ [.literal {} "a b".toList, .parameter ⟨false, true⟩ "x".toList])],
        .choice {} [.flag ⟨false, true⟩ "all".toList, .literal {} "--".toList]]
    tree.usage = "[[([v1\\.] [--mode[=(a\\ b | <x>...)]])]... | (--all... | \\--)]".toList ∧
      compile tree.usage false = .ok tree := by
  have hmode : Node.CanonicalKey "mode".toList := ⟨by decide, by decide, by decide⟩
  have hall : Node.CanonicalKey "all".toList := ⟨by decide, by decide, by decide⟩
  have hvalue : Node.Canonical (.choice ⟨true, false⟩
      [.literal {} "a b".toList, .parameter ⟨false, true⟩ "x".toList]) := by
    refine .choice (by decide) ?_ (by decide) (by decide) (by decide)
    simpa using ⟨Node.Canonical.literal (by decide) (by decide), .parameter (by decide)⟩
  have hversion : Node.Canonical (.sequence ⟨true, true⟩ [.literal ⟨true, false⟩ "v1.".toList,
      .setting ⟨true, false⟩ "mode".toList
        (.choice ⟨true, false⟩ [.literal {} "a b".toList, .parameter ⟨false, true⟩ "x".toList])]) := by
    refine .sequence (by decide) ?_ (by decide) (by decide)
    simpa using ⟨Node.Canonical.literal (by decide) (by decide), .setting hmode hvalue rfl rfl⟩
  have hrest : Node.Canonical
      (.choice {} [.flag ⟨false, true⟩ "all".toList, .literal {} "--".toList]) := by
    refine .choice (by decide) ?_ (by decide) (by decide) (by decide)
    simpa using ⟨Node.Canonical.flag hall, .literal (by decide) (by decide)⟩
  refine ⟨by decide, compile_usage_of_canonical (.choice (by decide) ?_ (by decide) (by decide)
    (by decide))⟩
  simpa using ⟨hversion, hrest⟩

end Usage

end Synopsis
