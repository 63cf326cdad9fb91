/-
Synopsis.Proofs.Node.Rereading — what is read back of a tree with any marks.

Not every tree is compiled from a usage as it is: a choice between commitments may stand
among other alternatives, and a filled group may be mandatory while all its members are
optional. `Node.reread` is what is read back of any tree that can be written. A group is
optional then if it is marked as optional or its members say so, and a choice among
others adds its alternatives to theirs, with nothing as one more if it may be left out.

A regular tree is as regular when it is read back (`Regular.rereadSpec`), has the same marks, is
as positional and admits the same values.
-/
import Synopsis.Node.Value
import Synopsis.Proofs.Node.Commitment
import Synopsis.Proofs.Node.Rendering

namespace Synopsis

namespace Node

open Usage (rowAlternatives)

/-! ## §1 The tree that is read back -/

/-- The alternatives that are read from those of a choice: all but the last add what their rows
do. -/
def spread : List Node → List Node
  | [] => []
  | [last] => [last]
  | node :: next :: nodes => rowAlternatives node ++ spread (next :: nodes)

mutual

/-- The tree that is read back from what is written for a tree with any marks. -/
def reread : Node → Node
  | .setting occ key value =>
    .setting ⟨occ.optional, occ.repeating || value.repeating⟩ key
      (value.reread.setRepeating false)
  | .sequence occ children =>
    .sequence ⟨(rereadAll children).all optional || occ.optional, occ.repeating⟩
      (rereadAll children)
  | .choice occ alternatives =>
    .choice ⟨(spread (rereadAll alternatives)).any (fun node => node.isEmpty || node.optional) ||
      occ.optional, occ.repeating⟩ ((spread (rereadAll alternatives)).filter (!·.isEmpty))
  | node => node

def rereadAll : List Node → List Node
  | [] => []
  | node :: nodes => node.reread :: rereadAll nodes

end

theorem rereadAll_eq_map (nodes : List Node) : rereadAll nodes = nodes.map reread := by
  induction nodes with
  | nil => rfl
  | cons node nodes ih => rw [rereadAll, ih, List.map_cons]

@[simp] theorem length_rereadAll (nodes : List Node) : (rereadAll nodes).length = nodes.length := by
  rw [rereadAll_eq_map, List.length_map]

@[simp] theorem isEmpty_reread (node : Node) : node.reread.isEmpty = node.isEmpty := by
  cases node <;> rfl

/-- What is known of the members of a group once they are read back. -/
theorem forall_mem_rereadAll_iff {nodes : List Node} {P : Node → Prop} :
    (∀ node ∈ rereadAll nodes, P node) ↔ ∀ node ∈ nodes, P node.reread := by
  rw [rereadAll_eq_map]
  exact List.forall_mem_map

/-! ## §2 Formed trees -/

/-- Whatever holds of the members of regular nodes that are spread and of the last one holds of all
the alternatives that are read. -/
theorem of_mem_spread {nodes : List Node} {alternative : Node} (h : alternative ∈ spread nodes) :
    (∃ node ∈ nodes.dropLast, alternative ∈ rowAlternatives node) ∨ alternative ∈ nodes.getLast? := by
  fun_induction spread nodes with
  | case1 => cases h
  | case2 last => exact .inr (by rw [List.mem_singleton.mp h]; rfl)
  | case3 node next nodes ih =>
    rcases List.mem_append.mp h with hmem | hmem
    · exact .inl ⟨node, by simp, hmem⟩
    · rcases ih hmem with ⟨other, hother, hmem⟩ | hlast
      · exact .inl ⟨other, by simp [hother], hmem⟩
      · exact .inr (by rwa [List.getLast?_cons_cons])

theorem Formed.withOcc {node : Node} (h : node.Formed) (occ : Occurrence) :
    (node.withOcc occ).Formed := by
  cases h with
  | literal hname => exact .literal hname
  | parameter hname => exact .parameter hname
  | flag hkey => exact .flag hkey
  | setting hkey hvalue => exact .setting hkey hvalue
  | sequence hlength hchildren hfilled => exact .sequence hlength hchildren hfilled
  | choice hlength halternatives hfilled => exact .choice hlength halternatives hfilled
  | nothing => exact .nothing

theorem Formed.rowAlternatives {node : Node} (h : node.Formed) :
    ∀ alternative ∈ rowAlternatives node, alternative.Formed := by
  intro alternative hmem
  rcases Usage.cases_of_mem_rowAlternatives hmem with
    rfl | ⟨rfl, -⟩ | ⟨occ, alternatives, rfl, hmember⟩
  · exact h
  · exact .nothing
  · cases h with
    | choice _ halternatives _ => exact halternatives alternative hmember

/-- A row that is not nothing adds an alternative that is not. -/
theorem Formed.exists_filled_rowAlternative {node : Node} (h : node.Formed)
    (hfilled : node.isEmpty = false) :
    ∃ alternative ∈ Usage.rowAlternatives node, alternative.isEmpty = false := by
  cases h with
  | choice hlength _ hmembers =>
    unfold Usage.rowAlternatives
    simp only
    split
    · exact ⟨_, List.mem_singleton_self _, rfl⟩
    · obtain ⟨alternative, hmem⟩ :=
        List.exists_mem_of_length_pos (Nat.lt_of_lt_of_le Nat.two_pos hlength)
      exact ⟨alternative, List.mem_append_left _ hmem, hmembers alternative hmem⟩
  | _ => exact ⟨_, List.mem_singleton_self _, hfilled⟩

/-- Of the alternatives that are read at least as many are kept as were written. -/
theorem length_le_filter_spread {nodes : List Node} (h : ∀ node ∈ nodes, node.Formed)
    (hfilled : ∀ node ∈ nodes, node.isEmpty = false) :
    nodes.length ≤ ((spread nodes).filter (!·.isEmpty)).length := by
  fun_induction spread nodes with
  | case1 => exact Nat.le_refl _
  | case2 last => simp [hfilled last (by simp)]
  | case3 node next nodes ih =>
    have ih := ih (fun other hother => h other (by simp [hother]))
      fun other hother => hfilled other (by simp [hother])
    obtain ⟨alternative, hmem, hkept⟩ :=
      (h node (by simp)).exists_filled_rowAlternative (hfilled node (by simp))
    have hpos : 0 < ((Usage.rowAlternatives node).filter (!·.isEmpty)).length :=
      List.length_pos_of_mem (List.mem_filter.mpr ⟨hmem, by simp [hkept]⟩)
    rw [List.filter_append, List.length_append, List.length_cons]
    omega

/-- What rows hand on to the alternatives that they add holds of all that are read. -/
theorem forall_mem_spread {nodes : List Node} {P : Node → Prop}
    (hrow : ∀ node, P node → ∀ alternative ∈ Usage.rowAlternatives node, P alternative)
    (h : ∀ node ∈ nodes, P node) : ∀ node ∈ spread nodes, P node := by
  intro alternative hmem
  rcases of_mem_spread hmem with ⟨node, hnode, hmem⟩ | hlast
  · exact hrow node (h node (List.dropLast_subset nodes hnode)) alternative hmem
  · exact h alternative (List.mem_of_getLast? hlast)

/-- A tree that is read back is formed. -/
theorem Formed.reread {node : Node} (h : node.Formed) : node.reread.Formed := by
  induction h with
  | literal hname => exact .literal hname
  | parameter hname => exact .parameter hname
  | flag hkey => exact .flag hkey
  | setting hkey _ ih => exact .setting hkey (ih.withOcc _)
  | sequence hlength _ hfilled ih =>
    exact .sequence (by simpa using hlength) (forall_mem_rereadAll_iff.mpr ih)
      (forall_mem_rereadAll_iff.mpr fun child hchild => by simp [hfilled child hchild])
  | @choice occ alternatives hlength _ hfilled ih =>
    have hmembers := forall_mem_rereadAll_iff.mpr ih
    have hkept := length_le_filter_spread hmembers
      (forall_mem_rereadAll_iff.mpr fun node hnode => by simp [hfilled node hnode])
    rw [length_rereadAll] at hkept
    refine .choice (Nat.le_trans hlength hkept) (fun node hnode => ?_) fun node hnode => ?_
    · exact forall_mem_spread (fun _ => Formed.rowAlternatives) hmembers node
        (List.mem_filter.mp hnode).1
    · simpa using (List.mem_filter.mp hnode).2
  | nothing => exact .nothing

/-! ## §3 Steady trees -/

mutual

/-- Every group is marked as optional if its members say that it is. -/
def isSteady : Node → Bool
  | .setting _ _ value => value.isSteady
  | .sequence occ children => areSteady children && (!children.all optional || occ.optional)
  | .choice occ alternatives => areSteady alternatives && (!alternatives.any optional || occ.optional)
  | _ => true

def areSteady : List Node → Bool
  | [] => true
  | node :: nodes => node.isSteady && areSteady nodes

end

theorem areSteady_iff {nodes : List Node} :
    areSteady nodes = true ↔ ∀ node ∈ nodes, node.isSteady = true := by
  induction nodes with
  | nil => simp [areSteady]
  | cons node nodes ih => simp [areSteady, ih]

/-- A formed tree that is steady is regular. -/
theorem Formed.regular {node : Node} (h : node.Formed) (hsteady : node.isSteady = true) :
    node.Regular := by
  induction h with
  | literal hname => exact .literal hname
  | parameter hname => exact .parameter hname
  | flag hkey => exact .flag hkey
  | setting hkey _ ih => exact .setting hkey (ih hsteady)
  | @sequence occ children hlength _ hfilled ih =>
    simp only [isSteady, Bool.and_eq_true, Bool.or_eq_true, Bool.not_eq_true', areSteady_iff]
      at hsteady
    obtain ⟨hmembers, hmarks⟩ := hsteady
    refine .sequence hlength (fun child h => ih child h (hmembers child h)) hfilled ?_
    intro hall
    exact hmarks.resolve_left (by simpa using hall)
  | @choice occ alternatives hlength _ hfilled ih =>
    simp only [isSteady, Bool.and_eq_true, Bool.or_eq_true, Bool.not_eq_true', areSteady_iff]
      at hsteady
    obtain ⟨hmembers, hmarks⟩ := hsteady
    refine .choice hlength (fun node h => ih node h (hmembers node h)) hfilled ?_
    intro node h hopt
    refine hmarks.resolve_left ?_
    intro hnone
    exact absurd hopt (by simpa using List.any_eq_false.mp hnone node h)
  | nothing => exact .nothing

/-! ## §4 Regular trees -/

/-- Marks that say what the members say already. -/
theorem eq_occ_of_imp {occ : Occurrence} {optional : Bool}
    (h : optional = true → occ.optional = true) :
    (⟨optional || occ.optional, occ.repeating⟩ : Occurrence) = occ := by
  cases optional with
  | false => rfl
  | true => rw [Bool.true_or, ← h rfl]

/-- An alternative that a row adds may be left out, or is nothing, only if the row may be left
out. -/
theorem optional_of_mem_rowAlternatives {node alternative : Node} (hregular : node.Regular)
    (hfilled : node.isEmpty = false) (hmem : alternative ∈ rowAlternatives node)
    (h : (alternative.isEmpty || alternative.optional) = true) : node.optional = true := by
  rcases Usage.cases_of_mem_rowAlternatives hmem with rfl | ⟨-, hoptional⟩ | ⟨_, _, rfl, hmember⟩
  · rwa [hfilled, Bool.false_or] at h
  · exact hoptional
  · cases hregular with
    | choice _ _ hmembers hoptional =>
      rw [hmembers alternative hmember, Bool.false_or] at h
      exact hoptional alternative hmember h

/-- What is known of a regular tree that is read back. -/
structure RereadSpec (node : Node) : Prop where
  regular : node.reread.Regular
  optional_eq : node.reread.optional = node.optional

/-- The alternatives that are read from those of a choice say that it is optional only if it is. -/
theorem optional_of_mem_spread {occ : Occurrence} {alternatives : List Node}
    (hspec : ∀ node ∈ alternatives, RereadSpec node)
    (hfilled : ∀ node ∈ alternatives, node.isEmpty = false)
    (hoptional : ∀ node ∈ alternatives, node.optional = true → occ.optional = true)
    {alternative : Node} (hmem : alternative ∈ spread (rereadAll alternatives))
    (h : (alternative.isEmpty || alternative.optional) = true) : occ.optional = true := by
  have hmembers : ∀ node ∈ rereadAll alternatives, node.Regular ∧ node.isEmpty = false ∧
      (node.optional = true → occ.optional = true) :=
    forall_mem_rereadAll_iff.mpr fun node hnode =>
      ⟨(hspec node hnode).regular, by simp [hfilled node hnode],
        fun hopt => hoptional node hnode ((hspec node hnode).optional_eq ▸ hopt)⟩
  rcases of_mem_spread hmem with ⟨node, hnode, hmem⟩ | hlast
  · obtain ⟨hregular, hempty, hmarks⟩ := hmembers node (List.dropLast_subset _ hnode)
    exact hmarks (optional_of_mem_rowAlternatives hregular hempty hmem h)
  · obtain ⟨-, hempty, hmarks⟩ := hmembers alternative (List.mem_of_getLast? hlast)
    rw [hempty, Bool.false_or] at h
    exact hmarks h

/-- A sequence keeps its marks if its children are optional as before. -/
theorem reread_sequence {occ : Occurrence} {children : List Node}
    (hspec : ∀ child ∈ children, RereadSpec child)
    (hoptional : (∀ child ∈ children, child.optional = true) → occ.optional = true) :
    (Node.sequence occ children).reread = .sequence occ (rereadAll children) := by
  rw [reread, eq_occ_of_imp fun hall => hoptional fun child hchild => ?_]
  rw [← (hspec child hchild).optional_eq]
  exact forall_mem_rereadAll_iff.mp (List.all_eq_true.mp hall) child hchild

/-- A choice keeps its marks if its alternatives are optional as before. -/
theorem reread_choice {occ : Occurrence} {alternatives : List Node}
    (hspec : ∀ node ∈ alternatives, RereadSpec node)
    (hfilled : ∀ node ∈ alternatives, node.isEmpty = false)
    (hoptional : ∀ node ∈ alternatives, node.optional = true → occ.optional = true) :
    (Node.choice occ alternatives).reread =
      .choice occ ((spread (rereadAll alternatives)).filter (!·.isEmpty)) := by
  rw [reread, eq_occ_of_imp fun hany => ?_]
  obtain ⟨alternative, hmem, h⟩ := List.any_eq_true.mp hany
  exact optional_of_mem_spread hspec hfilled hoptional hmem h

/-- A regular tree is regular when it is read back, and optional as before. -/
theorem Regular.rereadSpec {node : Node} (h : node.Regular) : RereadSpec node := by
  induction h with
  | literal hname => exact ⟨.literal hname, rfl⟩
  | parameter hname => exact ⟨.parameter hname, rfl⟩
  | flag hkey => exact ⟨.flag hkey, rfl⟩
  | setting hkey _ ih => exact ⟨.setting hkey (ih.regular.setRepeating false), rfl⟩
  | nothing => exact ⟨.nothing, rfl⟩
  | @sequence occ children hlength hchildren hfilled hoptional ih =>
    have hformed := (Regular.sequence hlength hchildren hfilled hoptional).formed.reread
    rw [reread_sequence ih hoptional] at hformed
    cases hformed with
    | sequence hlength' _ hfilled' =>
      constructor <;> rw [reread_sequence ih hoptional]
      · refine .sequence hlength' (forall_mem_rereadAll_iff.mpr fun child h => (ih child h).regular)
          hfilled' fun hall => hoptional fun child hchild => ?_
        rw [← (ih child hchild).optional_eq]
        exact forall_mem_rereadAll_iff.mp hall child hchild
      · rfl
  | @choice occ alternatives hlength halternatives hfilled hoptional ih =>
    have hformed := (Regular.choice hlength halternatives hfilled hoptional).formed.reread
    have hmembers := forall_mem_spread (fun _ => Usage.regular_rowAlternatives)
      (forall_mem_rereadAll_iff.mpr fun node h => (ih node h).regular)
    rw [reread_choice ih hfilled hoptional] at hformed
    cases hformed with
    | choice hlength' _ hfilled' =>
      constructor <;> rw [reread_choice ih hfilled hoptional]
      · refine .choice hlength' (fun node h => hmembers node (List.mem_filter.mp h).1) hfilled' ?_
        intro node h hopt
        refine optional_of_mem_spread ih hfilled hoptional (List.mem_filter.mp h).1 ?_
        rw [hopt, Bool.or_true]
      · rfl

/-! ## §5 Loose choices -/

/-- The node is a choice that may be left out and does not repeat. Between other alternatives its
own alternatives are read as theirs, and leaving it out is tried last. -/
def isLooseChoice : Node → Bool
  | .choice occ _ => occ.optional && !occ.repeating
  | _ => false

/-- A choice that is spread and has to be there adds its alternatives and nothing else. -/
theorem rowAlternatives_cases {node : Node} (h : node.isLooseChoice = false) :
    rowAlternatives node = [node] ∨
      ∃ alternatives, node = .choice {} alternatives ∧ rowAlternatives node = alternatives := by
  cases node with
  | choice occ alternatives =>
    obtain ⟨optional, repeating⟩ := occ
    cases repeating with
    | true => exact .inl rfl
    | false =>
      have hoptional : optional = false := by simpa [isLooseChoice] using h
      subst hoptional
      exact .inr ⟨alternatives, rfl, List.append_nil _⟩
  | _ => exact .inl rfl

/-- The alternatives that a regular row adds, if it is no choice that may be left out, are filled. -/
theorem isEmpty_of_mem_rowAlternatives {node alternative : Node} (hregular : node.Regular)
    (hfilled : node.isEmpty = false) (hloose : node.isLooseChoice = false)
    (hmem : alternative ∈ rowAlternatives node) : alternative.isEmpty = false := by
  rcases rowAlternatives_cases hloose with heq | ⟨alternatives, rfl, heq⟩
  · rw [heq] at hmem
    rwa [List.mem_singleton.mp hmem]
  · rw [heq] at hmem
    cases hregular with
    | choice _ _ hmembers _ => exact hmembers alternative hmem

theorem optional_of_isLooseChoice {node : Node} (h : node.isLooseChoice = true) :
    node.optional = true := by
  cases node with
  | choice occ alternatives => exact (Bool.and_eq_true_iff.mp h).1
  | _ => cases h

theorem isLooseChoice_reread {node : Node} (h : node.Regular) :
    node.reread.isLooseChoice = node.isLooseChoice := by
  cases h with
  | @choice occ alternatives _ halternatives hfilled hoptional =>
    rw [reread_choice (fun node h => (halternatives node h).rereadSpec) hfilled hoptional]
    rfl
  | _ => rfl

/-! ## §6 Position and values -/

/-- Something holds of one of the alternatives that are read just if it does of one of those that
were written, if it holds of a choice that is spread just if it does of one of its alternatives. -/
theorem any_spread {p : Node → Bool} {nodes : List Node}
    (h : ∀ node ∈ nodes.dropLast, (rowAlternatives node).any p = p node) :
    (spread nodes).any p = nodes.any p := by
  fun_induction spread nodes with
  | case1 => rfl
  | case2 => rfl
  | case3 node next nodes ih =>
    rw [List.any_append, List.any_cons, h node (by simp),
      ih fun other hother => h other (by simp [hother])]

/-- If something holds of a row just if it does of one of the alternatives it adds, and never of
nothing, then it holds of an alternative that is kept just if it does of one of the rows. -/
theorem any_filter_spread {p : Node → Bool} {nodes : List Node}
    (hempty : ∀ node ∈ spread nodes, node.isEmpty = true → p node = false)
    (hrow : ∀ node ∈ nodes.dropLast, (rowAlternatives node).any p = p node) :
    ((spread nodes).filter (!·.isEmpty)).any p = nodes.any p := by
  rw [List.any_filter, ← any_spread hrow]
  refine any_congr_of_mem ?_
  intro node hnode
  cases hnothing : node.isEmpty with
  | false => rfl
  | true => rw [hempty node hnode hnothing]; rfl

theorem any_rereadAll {p : Node → Bool} {nodes : List Node}
    (h : ∀ node ∈ nodes, p node.reread = p node) : (rereadAll nodes).any p = nodes.any p := by
  rw [rereadAll_eq_map, List.any_map]
  exact any_congr_of_mem h

theorem positional_sequence {occ : Occurrence} {children : List Node}
    (h : ∀ child ∈ children, child.Regular) :
    (Node.sequence occ children).positional = children.any positional := by
  rw [positional, positional?, anyPositional?_eq fun child hchild => (h child hchild).isDecided]
  simp

theorem positional_choice {occ : Occurrence} {alternatives : List Node}
    (h : ∀ node ∈ alternatives, node.Regular) :
    (Node.choice occ alternatives).positional = alternatives.any positional := by
  rw [positional, positional?, anyPositional?_eq fun node hnode => (h node hnode).isDecided]
  simp

theorem Regular.of_mem_choice {occ : Occurrence} {alternatives : List Node}
    (h : (Node.choice occ alternatives).Regular) : ∀ node ∈ alternatives, node.Regular := by
  cases h with
  | choice _ halternatives _ _ => exact halternatives

theorem positional_rowAlternatives {node : Node} (h : node.Regular) :
    (rowAlternatives node).any positional = node.positional := by
  unfold Usage.rowAlternatives
  split
  · rename_i occ alternatives
    split
    · exact Bool.or_false _
    · rw [positional_choice h.of_mem_choice, List.any_append]
      split <;> simp [positional, positional?, Node.nothing]
  · exact Bool.or_false _

/-- What is read back of a regular tree is positional if the tree is. -/
theorem positional?_reread {node : Node} (h : node.Regular) :
    node.reread.positional? = node.positional? := by
  have hpositional : node.reread.positional = node.positional := by
    induction h with
    | @sequence occ children hlength hchildren hfilled hoptional ih =>
      have hreread := reread_sequence (fun child h => (hchildren child h).rereadSpec) hoptional
      have hmembers := forall_mem_rereadAll_iff.mpr
        fun child h => (hchildren child h).rereadSpec.regular
      rw [hreread, positional_sequence hmembers, positional_sequence hchildren, any_rereadAll ih]
    | @choice occ alternatives hlength halternatives hfilled hoptional ih =>
      have hspec := fun node h => (halternatives node h).rereadSpec
      have hregular := (Regular.choice hlength halternatives hfilled hoptional).rereadSpec.regular
      have hmembers := forall_mem_rereadAll_iff.mpr fun node h => (hspec node h).regular
      rw [reread_choice hspec hfilled hoptional] at hregular ⊢
      rw [positional_choice hregular.of_mem_choice, positional_choice halternatives,
        any_filter_spread, any_rereadAll ih]
      · intro node _ hempty
        cases node <;> first | rfl | cases hempty
      · exact fun node h => positional_rowAlternatives (hmembers node (List.dropLast_subset _ h))
    | _ => rfl
  rw [h.rereadSpec.regular.isDecided, h.isDecided, hpositional]

theorem anyAdmits_eq (text : Text) (nodes : List Node) :
    anyAdmits text nodes = nodes.any (admits text) := by
  induction nodes with
  | nil => rfl
  | cons node nodes ih => rw [anyAdmits, ih, List.any_cons]

theorem admits_of_isEmpty {node : Node} (h : node.isEmpty = true) (text : Text) :
    node.admits text = text.isEmpty := by
  cases node <;> first | rfl | cases h

theorem admits_rowAlternatives (text : Text) (node : Node) :
    (rowAlternatives node).any (admits text) = node.admits text := by
  unfold Usage.rowAlternatives
  split
  · rename_i occ alternatives
    split
    · exact Bool.or_false _
    · rw [List.any_append, admits, anyAdmits_eq, Bool.or_comm]
      split <;> simp_all [admits, Node.nothing]
  · exact Bool.or_false _

/-- What is read back of a regular value admits the same texts. An alternative that is nothing is
not kept, but then the choice is optional and admits the empty text itself. -/
theorem admits_reread (text : Text) {node : Node} (h : node.Regular) :
    node.reread.admits text = node.admits text := by
  induction h with
  | @sequence occ children hlength hchildren hfilled hoptional ih =>
    rw [reread_sequence (fun child h => (hchildren child h).rereadSpec) hoptional]
    rfl
  | @choice occ alternatives hlength halternatives hfilled hoptional ih =>
    have hspec := fun node h => (halternatives node h).rereadSpec
    rw [reread_choice hspec hfilled hoptional, admits, admits, anyAdmits_eq, anyAdmits_eq]
    cases habsent : text.isEmpty && occ.optional with
    | true => rfl
    | false =>
      rw [any_filter_spread, any_rereadAll ih]
      · intro node hnode hempty
        have hopt := optional_of_mem_spread hspec hfilled hoptional hnode (by simp [hempty])
        rw [admits_of_isEmpty hempty]
        simpa [hopt] using habsent
      · exact fun node _ => admits_rowAlternatives text node
  | _ => rfl

@[simp] theorem admits_setRepeating (text : Text) (repeating : Bool) (node : Node) :
    (node.setRepeating repeating).admits text = node.admits text := by
  cases node <;> rfl

@[simp] theorem optional_setRepeating (repeating : Bool) (node : Node) :
    (node.setRepeating repeating).optional = node.optional := by
  cases node <;> rfl

/-- What is read back of a flag's value admits the same, whatever marker it loses. -/
theorem admitsGiven_reread {value : Node} (h : value.Regular) :
    (fun given => (value.reread.setRepeating false).admitsGiven given) =
      fun given => value.admitsGiven given := by
  funext given
  cases given with
  | none => simp [admitsGiven, h.rereadSpec.optional_eq]
  | some text => simp [admitsGiven, admits_reread text h]

/-! ## §7 Choices between commitments -/

theorem length_commitments (before children : List Node) :
    (commitments before children).length = children.countP isOpen := by
  induction children generalizing before with
  | nil => rfl
  | cons child children ih =>
    by_cases hopen : child.isOpen = true
    · rw [commitments, if_pos hopen, List.length_cons, ih, List.countP_cons_of_pos hopen]
    · rw [commitments, if_neg hopen, ih, List.countP_cons_of_neg hopen]

theorem Formed.fill {child : Node} (h : child.Formed) : child.fill.Formed := by
  unfold Node.fill
  split
  · exact h.withOcc _
  · exact h

theorem formed_bundle {nodes : List Node} (hne : nodes ≠ []) (hnodes : ∀ node ∈ nodes, node.Formed)
    (hfilled : ∀ node ∈ nodes, node.isEmpty = false) : (bundle nodes).Formed := by
  match nodes with
  | [] => exact absurd rfl hne
  | [only] => exact hnodes only (by simp)
  | _ :: _ :: _ => exact .sequence (by simp) hnodes hfilled

/-- Turning the ambiguous sequences of a regular tree into choices leaves it formed. -/
theorem Regular.formed_commit {node : Node} (h : node.Regular) : node.commit.Formed := by
  induction h with
  | literal hname => exact .literal hname
  | parameter hname => exact .parameter hname
  | flag hkey => exact .flag hkey
  | setting hkey hvalue => exact .setting hkey hvalue.formed
  | nothing => exact .nothing
  | @sequence occ children hlength hchildren hfilled hoptional ih =>
    have hformed := of_mem_commitAll ih
    have hfilled := isEmpty_of_mem_commitAll (fun child h => sameMarks_commit (hchildren child h))
      hfilled
    rw [commit]
    split
    · rename_i hambiguous
      rw [commitmentChoice_eq hfilled]
      refine .choice ?_ (List.forall_mem_map.mpr fun committed hmem => ?_)
        (List.forall_mem_map.mpr fun committed hmem => ?_)
      · rw [List.length_map, length_commitments]
        exact of_decide_eq_true hambiguous
      · have hmembers : ∀ node ∈ committed, node.Formed :=
          of_mem_commitment (fun _ => Formed.fill) hformed hmem
        refine formed_bundle ?_ hmembers (of_mem_commitment (fun _ => isEmpty_fill) hfilled hmem)
        obtain ⟨_, _, _, -, -, rfl⟩ := mem_commitments_iff.mp hmem
        simp
      · exact isEmpty_bundle (of_mem_commitment (fun _ => isEmpty_fill) hfilled hmem)
    · exact .sequence (by simpa [commitAll_eq_map] using hlength) hformed hfilled
  | @choice occ alternatives hlength halternatives hfilled hoptional ih =>
    exact .choice (by simpa [commitAll_eq_map] using hlength) (of_mem_commitAll ih)
      (isEmpty_of_mem_commitAll (fun node h => sameMarks_commit (halternatives node h)) hfilled)

end Node

end Synopsis
