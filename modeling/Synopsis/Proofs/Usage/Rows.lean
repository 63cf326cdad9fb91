/-
Synopsis.Proofs.Usage.Rows — the rows of an expression.

A choice keeps the candidates that are not nothing, and it may be left out if one of them
is nothing or may be left out itself. A row in front of a bar that is a choice adds its
own alternatives, by which neither is changed (`anyAbsent_rowAlternatives`).

The symbols of an expression go on with the row that has been begun and add further rows
to it. What the rows are does not depend on the alternatives before them. At the end of
the expression the last row is an alternative as it is, while those before it were spread
out at the bars behind them (`HasRows.builds`). If a bar follows, the last row is spread
out as well (`HasRows.builds_bar`), and that is the only difference that it makes to a row
whether the expression goes on.
-/
import Synopsis.Proofs.Usage.Acceptance
import Synopsis.Proofs.Usage.Canonical

namespace Synopsis

/-! ## §1 Candidates of a choice -/

namespace Node

def kept (candidates : List Node) : List Node := candidates.filter (!·.isEmpty)

/-- Some candidate is nothing or may be left out, and so may be a choice between them. -/
def anyAbsent (candidates : List Node) : Bool :=
  candidates.any fun node => node.isEmpty || node.optional

theorem choiceOf_eq (candidates : List Node) :
    choiceOf candidates false = .choice ⟨anyAbsent candidates, false⟩ (kept candidates) := rfl

@[simp] theorem anyAbsent_nil : anyAbsent [] = false := rfl

@[simp] theorem anyAbsent_cons (node : Node) (nodes : List Node) :
    anyAbsent (node :: nodes) = ((node.isEmpty || node.optional) || anyAbsent nodes) := rfl

@[simp] theorem kept_append (candidates others : List Node) :
    kept (candidates ++ others) = kept candidates ++ kept others :=
  List.filter_append ..

@[simp] theorem anyAbsent_append (candidates others : List Node) :
    anyAbsent (candidates ++ others) = (anyAbsent candidates || anyAbsent others) :=
  List.any_append ..

theorem anyAbsent_iff {nodes : List Node} :
    anyAbsent nodes = true ↔ ∃ node ∈ nodes, node.isEmpty = true ∨ node.optional = true := by
  simp [anyAbsent]

theorem isEmpty_of_mem_kept {candidates : List Node} {node : Node} (h : node ∈ kept candidates) :
    node.isEmpty = false := by
  simpa using (List.mem_filter.mp h).2

section Candidates

variable {node only : Node} {alternatives candidates : List Node}

theorem exists_of_isSingleChoice (h : node.isSingleChoice = true) :
    ∃ optional alternatives, node = .choice ⟨optional, false⟩ alternatives := by
  cases node with
  | choice occ alternatives =>
    obtain ⟨optional, repeating⟩ := occ
    obtain rfl : repeating = false := by simpa [isSingleChoice] using h
    exact ⟨optional, alternatives, rfl⟩
  | _ => cases h

theorem optional_withOcc (hfilled : node.isEmpty = false) (occ : Occurrence) :
    (node.withOcc occ).optional = occ.optional := by
  cases node with
  | empty => cases hfilled
  | _ => rfl

theorem kept_eq_self (h : ∀ node ∈ alternatives, node.isEmpty = false) :
    kept alternatives = alternatives :=
  List.filter_eq_self.mpr fun node hnode => by simp [h node hnode]

/-- A choice may be left out if a candidate may, also once it is simplified. -/
theorem absent_simplify_choiceOf (hne : candidates ≠ []) :
    ((choiceOf candidates false).simplify.isEmpty || (choiceOf candidates false).simplify.optional) =
      anyAbsent candidates := by
  rw [choiceOf_eq]
  match hkept : kept candidates with
  | [] =>
    obtain ⟨node, candidates, rfl⟩ := List.exists_cons_of_ne_nil hne
    have hempty : node.isEmpty = true := by
      simpa using List.filter_eq_nil_iff.mp hkept node (by simp)
    rw [anyAbsent_cons, hempty]
    rfl
  | [only] =>
    have hmem := List.mem_filter.mp (hkept ▸ List.mem_singleton_self only)
    have hfilled : only.isEmpty = false := by simpa using hmem.2
    have habsent : only.optional = true → anyAbsent candidates = true := fun h =>
      List.any_eq_true.mpr ⟨only, hmem.1, by simp [h]⟩
    rw [simplify, isEmpty_withOcc, hfilled, Bool.false_or, optional_withOcc hfilled]
    cases hoptional : only.optional with
    | true => rw [Bool.true_or, habsent hoptional]
    | false => rfl
  | _ :: _ :: _ => rfl

end Candidates

end Node

namespace Usage

open Node (Regular kept anyAbsent choiceOf spread)

/-! ## §2 What rows add to a choice -/

section RowAlternatives

variable {node only : Node} {alternatives candidates rows : List Node} {optional : Bool}

theorem rowAlternatives_choice (optional : Bool) (alternatives : List Node) :
    rowAlternatives (.choice ⟨optional, false⟩ alternatives) =
      alternatives ++ if optional then [.nothing] else [] := rfl

/-- A choice that does not repeat adds its alternatives. -/
theorem kept_rowAlternatives_choice (h : ∀ node ∈ alternatives, node.isEmpty = false) :
    kept (rowAlternatives (.choice ⟨optional, false⟩ alternatives)) = alternatives := by
  rw [rowAlternatives_choice, Node.kept_append, Node.kept_eq_self h]
  cases optional with
  | true => exact List.append_nil _
  | false => exact List.append_nil _

/-- A choice between candidates adds those that it keeps when it is spread out. -/
theorem kept_rowAlternatives_choiceOf (candidates : List Node) :
    kept (rowAlternatives (choiceOf candidates false)) = kept candidates :=
  kept_rowAlternatives_choice fun _ => Node.isEmpty_of_mem_kept

theorem anyAbsent_rowAlternatives_choice (optional : Bool) (alternatives : List Node) :
    anyAbsent (rowAlternatives (.choice ⟨optional, false⟩ alternatives)) =
      (anyAbsent alternatives || optional) := by
  rw [rowAlternatives_choice, Node.anyAbsent_append]
  cases optional <;> rfl

/-- Any other row adds itself. -/
theorem kept_rowAlternatives_of_not_isSingleChoice (h : node.isSingleChoice = false)
    (hfilled : node.isEmpty = false) : kept (rowAlternatives node) = [node] := by
  rw [Node.rowAlternatives_of_not_isSingleChoice h]
  exact Node.kept_eq_self (by simpa using hfilled)

/-- A choice between candidates that is spread out may be left out if they may. -/
theorem anyAbsent_rowAlternatives_choiceOf (candidates : List Node) :
    anyAbsent (rowAlternatives (choiceOf candidates false)) = anyAbsent candidates := by
  rw [Node.choiceOf_eq, anyAbsent_rowAlternatives_choice]
  have hkept : anyAbsent (kept candidates) = true → anyAbsent candidates = true := by
    rw [Node.anyAbsent_iff, Node.anyAbsent_iff]
    rintro ⟨node, hnode, habsent⟩
    exact ⟨node, (List.mem_filter.mp hnode).1, habsent⟩
  cases habsent : anyAbsent (kept candidates) with
  | true => rw [hkept habsent, Bool.or_true]
  | false => rw [Bool.false_or]

/-- A regular row that is spread out may be left out if it could before. -/
theorem anyAbsent_rowAlternatives (h : node.Regular) :
    anyAbsent (rowAlternatives node) = (node.isEmpty || node.optional) := by
  cases hsingle : node.isSingleChoice with
  | false =>
    rw [Node.rowAlternatives_of_not_isSingleChoice hsingle, Node.anyAbsent_cons, Node.anyAbsent_nil,
      Bool.or_false]
  | true =>
    obtain ⟨optional, alternatives, rfl⟩ := Node.exists_of_isSingleChoice hsingle
    cases h with
    | choice _ _ hfilled hoptional =>
      have himp : anyAbsent alternatives = true → optional = true := by
        rw [Node.anyAbsent_iff]
        rintro ⟨node, hnode, hempty | hoptional'⟩
        · cases (hfilled node hnode).symm.trans hempty
        · exact hoptional node hnode hoptional'
      rw [anyAbsent_rowAlternatives_choice]
      cases habsent : anyAbsent alternatives with
      | true => rw [himp habsent]; rfl
      | false => rfl

theorem anyAbsent_flatMap (h : ∀ node ∈ rows, node.Regular) :
    anyAbsent (rows.flatMap rowAlternatives) = anyAbsent rows := by
  induction rows with
  | nil => rfl
  | cons node rows ih =>
    rw [List.flatMap_cons, Node.anyAbsent_append, anyAbsent_rowAlternatives (h node (by simp)),
      ih fun other hother => h other (by simp [hother])]
    rfl

theorem anyAbsent_spread (h : ∀ node ∈ rows, node.Regular) :
    anyAbsent (spread rows) = anyAbsent rows := by
  fun_induction spread rows with
  | case1 => rfl
  | case2 => rfl
  | case3 node next rows ih =>
    rw [Node.anyAbsent_append, anyAbsent_rowAlternatives (h node (by simp)),
      ih fun other hother => h other (by simp [hother])]
    rfl

/-- If regular rows add a single alternative, it is one of the rows and no choice that is spread
out. -/
theorem not_isSingleChoice_of_kept_flatMap (h : ∀ node ∈ rows, node.Regular)
    (hkept : kept (rows.flatMap rowAlternatives) = [only]) : only.isSingleChoice = false := by
  induction rows with
  | nil => cases hkept
  | cons node rows ih =>
    have ih := ih fun other hother => h other (by simp [hother])
    rw [List.flatMap_cons, Node.kept_append] at hkept
    cases hsingle : node.isSingleChoice with
    | true =>
      obtain ⟨optional, alternatives, rfl⟩ := Node.exists_of_isSingleChoice hsingle
      cases h _ List.mem_cons_self with
      | choice hlength _ hfilled _ =>
        have htwo := congrArg List.length hkept
        rw [kept_rowAlternatives_choice hfilled, List.length_append, List.length_singleton] at htwo
        omega
    | false =>
      cases hempty : node.isEmpty with
      | true =>
        have hnone : kept (rowAlternatives node) = [] := by
          rw [Node.rowAlternatives_of_not_isSingleChoice hsingle]
          exact List.filter_cons_of_neg (by simp [hempty])
        rw [hnone] at hkept
        exact ih hkept
      | false =>
        rw [kept_rowAlternatives_of_not_isSingleChoice hsingle hempty] at hkept
        obtain ⟨rfl, -⟩ := List.cons.inj hkept
        exact hsingle

theorem spread_cons {nodes : List Node} (node : Node) (h : nodes ≠ []) :
    spread (node :: nodes) = rowAlternatives node ++ spread nodes := by
  obtain ⟨next, nodes, rfl⟩ := List.exists_cons_of_ne_nil h
  rfl

theorem spread_concat (front : List Node) (last : Node) :
    spread (front ++ [last]) = front.flatMap rowAlternatives ++ [last] := by
  induction front with
  | nil => rfl
  | cons node front ih =>
    rw [List.cons_append, spread_cons node (by simp), ih, List.flatMap_cons, List.append_assoc]

theorem spread_ne_nil {rows : List Node} (h : rows ≠ []) : spread rows ≠ [] := by
  rw [← List.dropLast_concat_getLast h, spread_concat]
  simp

/-- The alternatives that regular rows add are regular. -/
theorem regular_of_mem_spread {rows : List Node} (h : ∀ node ∈ rows, node.Regular) :
    ∀ node ∈ spread rows, node.Regular :=
  Node.forall_mem_spread (fun _ => regular_rowAlternatives) h

end RowAlternatives

/-! ## §3 The rows that symbols go on with -/

/-- The rows that the symbols go on with behind a part of a row. -/
structure HasRows (row : Row) (symbols : List Symbol) (rows : List Node) : Prop where
  ne_nil : rows ≠ []
  /-- At the end the last row is an alternative as it is. -/
  builds (done : List Node) : Builds done row symbols (choiceOf (done ++ spread rows) false).simplify
  /-- Before a bar all rows are spread out. -/
  builds_bar {done : List Node} {rest : List Symbol} {result : Node}
    (hrest : Builds (done ++ rows.flatMap rowAlternatives) {} rest result) :
    Builds done row (symbols ++ .bar :: rest) result
  regular (hsound : ∀ symbol ∈ symbols, symbol.Sound) (hrow : row.IsRegular) :
    ∀ node ∈ rows, node.Regular

section Rows

variable {row : Row} {rest symbols : List Symbol} {rows : List Node}

theorem hasRows_nil (row : Row) : HasRows row [] [row.node] where
  ne_nil := by simp
  builds done := .finish done row
  builds_bar hrest := by
    rw [List.flatMap_singleton] at hrest
    exact .bar hrest
  regular _ hrow node hnode := by
    rw [List.mem_singleton.mp hnode]
    exact hrow.node

theorem HasRows.bar (h : HasRows {} rest rows) : HasRows row (.bar :: rest) (row.node :: rows) where
  ne_nil := by simp
  builds done := by
    rw [spread_cons _ h.ne_nil, ← List.append_assoc]
    exact .bar (h.builds _)
  builds_bar hrest := by
    rw [List.flatMap_cons, ← List.append_assoc] at hrest
    exact .bar (h.builds_bar hrest)
  regular hsound hrow := by
    have hrows := h.regular (fun symbol hsymbol => hsound symbol (by simp [hsymbol]))
      Row.isRegular_start
    exact List.forall_mem_cons.mpr ⟨hrow.node, hrows⟩

theorem HasRows.marker (hstarted : row.started = true) (h : HasRows row.repeatLast rest rows) :
    HasRows row (.marker :: rest) rows where
  ne_nil := h.ne_nil
  builds done := .marker hstarted (h.builds done)
  builds_bar hrest := .marker hstarted (h.builds_bar hrest)
  regular hsound hrow :=
    h.regular (fun symbol hsymbol => hsound symbol (by simp [hsymbol])) hrow.repeatLast

/-- An element goes on with the row. -/
theorem HasRows.element {node : Node} {front : List Symbol} (h : HasRows (row.push node) rest rows)
    (hbuilds : ∀ {done result}, Builds done (row.push node) rest result →
      Builds done row (front ++ rest) result)
    (hbuilds_bar : ∀ {done others result},
      Builds done (row.push node) (rest ++ .bar :: others) result →
        Builds done row (front ++ (rest ++ .bar :: others)) result)
    (hregular : (∀ symbol ∈ front, symbol.Sound) → node.Regular) :
    HasRows row (front ++ rest) rows where
  ne_nil := h.ne_nil
  builds done := hbuilds (h.builds done)
  builds_bar hrest := by
    rw [List.append_assoc]
    exact hbuilds_bar (h.builds_bar hrest)
  regular hsound hrow := by
    have hnode := hregular fun symbol hsymbol => hsound symbol (by simp [hsymbol])
    exact h.regular (fun symbol hsymbol => hsound symbol (by simp [hsymbol])) (hrow.push hnode)

/-- The symbols that are built behind a part of a row are the rest of it and further rows. -/
theorem exists_hasRows_of_builds {done : List Node} {result : Node}
    (h : Builds done row symbols result) :
    ∃ rows, HasRows row symbols rows ∧ result = (choiceOf (done ++ spread rows) false).simplify := by
  induction h with
  | finish done row => exact ⟨[row.node], hasRows_nil row, rfl⟩
  | @group done row bracket inner rest node _ hinner _ _ ihrest =>
    obtain ⟨rows, hrows, heq⟩ := ihrest
    have hgroup : HasRows row ((.opening bracket :: (inner ++ [.closing bracket])) ++ rest) rows :=
      hrows.element (fun h => by simpa using Builds.group hinner h)
        (fun h => by simpa using Builds.group hinner h)
        fun hsound => regular_bracketed _ (regular_of_builds hinner
          (fun symbol hsymbol => hsound symbol (by simp [hsymbol])) (by simp) Row.isRegular_start)
    exact ⟨rows, by simpa using hgroup, heq⟩
  | @bar done row rest _ _ ih =>
    obtain ⟨rows, hrows, heq⟩ := ih
    refine ⟨_, hrows.bar, ?_⟩
    rw [spread_cons _ hrows.ne_nil, ← List.append_assoc]
    exact heq
  | marker hstarted _ ih =>
    obtain ⟨rows, hrows, heq⟩ := ih
    exact ⟨rows, hrows.marker hstarted, heq⟩
  | @flag done row key rest _ hbare _ ih =>
    obtain ⟨rows, hrows, heq⟩ := ih
    have hflag : HasRows row ([.flag key] ++ rest) rows :=
      hrows.element (.flag hbare)
        (.flag ((startsValue_append rfl rfl rest).trans hbare))
        fun hsound => .flag (hsound (.flag key) (by simp))
    exact ⟨rows, hflag, heq⟩
  | @setting done row key symbol rest _ optional hvalue _ ih =>
    obtain ⟨rows, hrows, heq⟩ := ih
    have hsetting : HasRows row
        ((.flag key :: (valueSign optional ++ symbol :: valueClose optional)) ++ rest) rows :=
      hrows.element (fun h => by simpa using Builds.setting optional hvalue h)
        (fun h => by simpa using Builds.setting optional hvalue h)
        fun hsound => regular_settingOf optional (hsound (.flag key) (by simp))
          ((hsound symbol (by simp)).regular_leaf hvalue)
    exact ⟨rows, by simpa using hsetting, heq⟩
  | @settingGroup done row key bracket inner rest node _ optional hinner _ _ ihrest =>
    obtain ⟨rows, hrows, heq⟩ := ihrest
    have hsetting : HasRows row ((.flag key :: (valueSign optional ++ .opening bracket ::
        (inner ++ .closing bracket :: valueClose optional))) ++ rest) rows :=
      hrows.element (fun h => by simpa using Builds.settingGroup optional hinner h)
        (fun h => by simpa using Builds.settingGroup optional hinner h)
        fun hsound => regular_settingOf optional (hsound (.flag key) (by simp))
          (regular_bracketed _ (regular_of_builds hinner
            (fun symbol hsymbol => hsound symbol (by simp [hsymbol])) (by simp)
            Row.isRegular_start))
    exact ⟨rows, by simpa using hsetting, heq⟩
  | @leaf done row symbol rest _ hleaf _ ih =>
    obtain ⟨rows, hrows, heq⟩ := ih
    have helement : HasRows row ([symbol] ++ rest) rows :=
      hrows.element (.leaf hleaf) (.leaf hleaf)
        fun hsound => (hsound symbol (by simp)).regular_leaf (Symbol.isValue_of_isLeaf hleaf)
    exact ⟨rows, helement, heq⟩

end Rows

end Usage

end Synopsis
