/-
Synopsis.Proofs.Match.Grouping — parentheses around the first alternatives of a choice.

In `((a | b) | c) d` the group is spread out among the alternatives of the choice around
it, so the parentheses make no difference. They do make one to what a group is simplified
to. Where only one alternative is left in the group, it takes over that it may be left out
(`kept_rowAlternatives_of_single`). Where the last alternative of the group is a choice
itself, it stays one, while it is spread out without the parentheses
(`kept_rowAlternatives_of_choice`). A choice that takes nothing then ends the choice around
it, which would have gone on to the next alternative.

Neither can be seen if the group has to be there, or if one of its alternatives is an open
slot, which is never refused (`interchangeable_of_choice`). The group may then be exchanged
for its alternatives, whatever stands behind it (`parseWindow_groupedOperand`).
-/
import Synopsis.Proofs.Match.Exchange
import Synopsis.Proofs.Match.Rereading
import Synopsis.Proofs.Usage.Concatenation

namespace Synopsis

open Node (kept anyAbsent choiceOf spread)
open Usage (rowAlternatives kept_rowAlternatives_choice kept_rowAlternatives_choiceOf
  anyAbsent_rowAlternatives anyAbsent_rowAlternatives_choiceOf)

namespace Match

open Line (Parsed)

/-! ## §1 Choices that are spread out behind others -/

section Spreading

variable {front alternatives rows : List Node} {tree : Node} {optional : Bool}

/-- A choice may be spread out behind other alternatives if it has to be there, or if an open slot
among them all is never refused. -/
theorem interchangeable_of_choice
    (h : optional = false ∨ (front ++ alternatives).any Node.isOpen = true) :
    Interchangeable (front ++ [.choice ⟨optional, false⟩ alternatives]) (front ++ alternatives) where
  positional?_eq := by
    have hsingle : Node.anyPositional? [.choice ⟨optional, false⟩ alternatives] =
        Node.anyPositional? alternatives := by
      rw [Node.anyPositional?, Node.positional?]
      cases Node.anyPositional? alternatives with
      | none => rfl
      | some positional => cases positional <;> rfl
    rw [Node.anyPositional?_append, Node.anyPositional?_append, hsingle]
  firstOf_eq line token last memory := by
    rw [List.map_append, List.map_append, firstOf_append (lawful_map_slotOf line _),
      firstOf_append (lawful_map_slotOf line _)]
    cases optional with
    | false => exact congrArg _ (firstOf_choice line alternatives token last memory)
    | true =>
      rw [List.map_singleton, firstOf_looseChoice rfl]
      split
      · rename_i hleft
        have hopen : ∃ node ∈ front ++ alternatives, node.isOpen = true :=
          List.any_eq_true.mp (h.resolve_left (by simp))
        have hne := firstOf_ne_refused hopen hleft.2 memory
        rw [List.map_append, firstOf_append (lawful_map_slotOf line _)] at hne
        have hfront : (firstOf line.words.length token last memory (front.map (slotOf line))).1 ≠
            .refused := fun hfront => hne (by rw [orTry_of_eq hfront, hleft.1])
        rw [orTry_of_ne hfront, orTry_of_ne hfront]
      · rfl

/-- A single candidate takes over the marks of the choice, and loses nothing by it if the choice has
to be there or the candidate is an open slot. -/
theorem kept_rowAlternatives_of_single {candidates : List Node} {only : Node}
    (hkept : kept candidates = [only]) (hsingle : only.isSingleChoice = false)
    (h : (choiceOf candidates false).simplify.optional = false ∨ only.isOpen = true) :
    kept (rowAlternatives (choiceOf candidates false).simplify) = [only] := by
  have hmem := List.mem_filter.mp (hkept ▸ List.mem_singleton_self only)
  have hfilled : only.isEmpty = false := by simpa using hmem.2
  have htree : (choiceOf candidates false).simplify =
      only.withOcc ⟨only.optional || anyAbsent candidates, only.repeating⟩ := by
    rw [Node.choiceOf_eq, hkept, Node.simplify, Bool.or_false]
  have hoptional : (only.optional || anyAbsent candidates) = only.optional := by
    rcases h with hneeded | hopen
    · have hneeded : (only.optional || anyAbsent candidates) = false := by
        rwa [htree, Node.optional_withOcc hfilled] at hneeded
      rw [hneeded, (Bool.or_eq_false_iff.mp hneeded).1]
    · rw [(Node.isOpen_iff.mp hopen).1, Bool.true_or]
  have hself : only.withOcc ⟨only.optional, only.repeating⟩ = only := only.withOcc_occ
  rw [htree, hoptional, hself]
  exact Usage.kept_rowAlternatives_of_not_isSingleChoice hsingle hfilled

/-- The alternatives are the same, or there are several of them, and they are interchangeable. -/
def SameAlternatives (nodes others : List Node) : Prop :=
  nodes = others ∨ (Interchangeable nodes others ∧ 2 ≤ nodes.length ∧ 2 ≤ others.length)

/-- Grouped candidates are added as they are, if none of them is spread out by the group itself. -/
theorem kept_rowAlternatives_simplify {candidates : List Node}
    (hsingle : ∀ only, kept candidates = [only] → only.isSingleChoice = false)
    (h : (choiceOf candidates false).simplify.optional = false ∨
      (kept candidates).any Node.isOpen = true) :
    kept (rowAlternatives (choiceOf candidates false).simplify) = kept candidates := by
  match hkept : kept candidates with
  | [] =>
    rw [Node.choiceOf_eq, hkept]
    rfl
  | [only] =>
    exact kept_rowAlternatives_of_single hkept (hsingle only hkept) (by simpa [hkept] using h)
  | _ :: _ :: _ =>
    rw [Node.choiceOf_eq, Usage.simplify_choice (by simp [hkept]), ← Node.choiceOf_eq,
      kept_rowAlternatives_choiceOf, hkept]

/-- A choice at the end of grouped candidates is one alternative of the group, which is
interchangeable with its own alternatives. -/
theorem kept_rowAlternatives_of_choice (hlength : 2 ≤ alternatives.length)
    (hfilled : ∀ node ∈ alternatives, node.isEmpty = false)
    (htree : tree = (choiceOf (front ++ [.choice ⟨optional, false⟩ alternatives]) false).simplify)
    (h : tree.optional = false ∨ (kept front ++ alternatives).any Node.isOpen = true) :
    SameAlternatives (kept (rowAlternatives tree)) (kept front ++ alternatives) := by
  have hkept : kept (front ++ [.choice ⟨optional, false⟩ alternatives]) =
      kept front ++ [.choice ⟨optional, false⟩ alternatives] := Node.kept_append ..
  by_cases hnone : kept front = []
  · -- the choice is all there is in the group
    refine .inl ?_
    rw [htree, Node.choiceOf_eq, hkept, hnone]
    exact kept_rowAlternatives_choice hfilled
  · have hpos := List.length_pos_iff.mpr hnone
    have hseveral : 2 ≤ (kept (front ++ [.choice ⟨optional, false⟩ alternatives])).length := by
      rw [hkept, List.length_append, List.length_singleton]
      omega
    rw [Node.choiceOf_eq, Usage.simplify_choice hseveral, ← Node.choiceOf_eq] at htree
    have hneeded : tree.optional = false → optional = false := by
      rw [htree, Node.choiceOf_eq, Node.anyAbsent_append]
      exact fun h => (Bool.or_eq_false_iff.mp (Bool.or_eq_false_iff.mp h).2).1
    have hadded : kept (rowAlternatives tree) =
        kept front ++ [.choice ⟨optional, false⟩ alternatives] := by
      rw [htree, kept_rowAlternatives_choiceOf, hkept]
    refine .inr ⟨?_, ?_, by rw [List.length_append]; omega⟩
    · rw [hadded]
      exact interchangeable_of_choice (h.imp_left hneeded)
    · rw [hadded, ← hkept]
      exact hseveral

/-- Grouped rows add the alternatives that they add by themselves, or they add several that are
interchangeable with them. Only the last row may be a choice that is spread out in front of a bar and
not in the group. -/
theorem kept_rowAlternatives_spread (hne : rows ≠ []) (hregular : ∀ node ∈ rows, node.Regular)
    (htree : tree = (choiceOf (spread rows) false).simplify)
    (h : tree.optional = false ∨ (kept (rows.flatMap rowAlternatives)).any Node.isOpen = true) :
    SameAlternatives (kept (rowAlternatives tree)) (kept (rows.flatMap rowAlternatives)) := by
  obtain ⟨front, last, rfl⟩ : ∃ front last, rows = front ++ [last] :=
    ⟨rows.dropLast, rows.getLast hne, (List.dropLast_concat_getLast hne).symm⟩
  have hflat : (front ++ [last]).flatMap rowAlternatives =
      front.flatMap rowAlternatives ++ rowAlternatives last := by
    rw [List.flatMap_append, List.flatMap_singleton]
  rw [Usage.spread_concat] at htree
  cases hlast : last.isSingleChoice with
  | false =>
    have hsingle (only : Node) := @Usage.not_isSingleChoice_of_kept_flatMap only _ hregular
    rw [hflat, Node.rowAlternatives_of_not_isSingleChoice hlast] at h hsingle ⊢
    subst htree
    exact .inl (kept_rowAlternatives_simplify hsingle h)
  | true =>
    obtain ⟨optional, alternatives, rfl⟩ := Node.exists_of_isSingleChoice hlast
    cases hregular _ (List.mem_append_right front (List.mem_singleton_self _)) with
    | choice hlength _ hfilled _ =>
      rw [hflat, Node.kept_append, kept_rowAlternatives_choice hfilled] at h ⊢
      exact kept_rowAlternatives_of_choice hlength hfilled htree h

/-- Choices between several interchangeable alternatives are the same element. -/
theorem SameElement.choiceOf {candidates others : List Node}
    (habsent : anyAbsent candidates = anyAbsent others)
    (h : Interchangeable (kept candidates) (kept others)) (htwo : 2 ≤ (kept candidates).length)
    (htwo' : 2 ≤ (kept others).length) :
    SameElement (choiceOf candidates false) (choiceOf others false) where
  slotOf_eq line := by
    rw [Node.choiceOf_eq, Node.choiceOf_eq, habsent]
    exact h.slotOf_choice line _
  isEmpty_eq := rfl
  rowAlternatives := by
    refine ⟨?_, ?_, .inr ?_⟩
    · rw [anyAbsent_rowAlternatives_choiceOf, anyAbsent_rowAlternatives_choiceOf, habsent]
    · rwa [kept_rowAlternatives_choiceOf, kept_rowAlternatives_choiceOf]
    · rw [kept_rowAlternatives_choiceOf, kept_rowAlternatives_choiceOf]
      exact ⟨htwo, htwo'⟩

/-- A choice that begins with grouped rows is the same element as one that begins with the rows. -/
theorem sameElement_of_grouped (hne : rows ≠ []) (hregular : ∀ node ∈ rows, node.Regular)
    (htree : tree = (choiceOf (spread rows) false).simplify)
    (h : tree.optional = false ∨ (kept (rows.flatMap rowAlternatives)).any Node.isOpen = true ∨
      kept (rowAlternatives tree) = kept (rows.flatMap rowAlternatives))
    (others : List Node) :
    SameElement (Node.choiceOf (rowAlternatives tree ++ others) false).simplify
      (Node.choiceOf (rows.flatMap rowAlternatives ++ others) false).simplify := by
  have habsent : anyAbsent (rowAlternatives tree) = anyAbsent (rows.flatMap rowAlternatives) := by
    have htreeRegular : tree.Regular := htree ▸ Node.regular_simplify_choiceOf
      (Usage.regular_of_mem_spread hregular)
    rw [anyAbsent_rowAlternatives htreeRegular, htree,
      Node.absent_simplify_choiceOf (Usage.spread_ne_nil hne), Usage.anyAbsent_spread hregular,
      Usage.anyAbsent_flatMap hregular]
  have habsent' : anyAbsent (rowAlternatives tree ++ others) =
      anyAbsent (rows.flatMap rowAlternatives ++ others) := by
    rw [Node.anyAbsent_append, Node.anyAbsent_append, habsent]
  have hadded :
      SameAlternatives (kept (rowAlternatives tree)) (kept (rows.flatMap rowAlternatives)) := by
    rcases h with h | h | h
    · exact kept_rowAlternatives_spread hne hregular htree (.inl h)
    · exact kept_rowAlternatives_spread hne hregular htree (.inr h)
    · exact .inl h
  rcases hadded with hkept | ⟨hinterchangeable, htwo, htwo'⟩
  · have hsame : Node.choiceOf (rowAlternatives tree ++ others) false =
        Node.choiceOf (rows.flatMap rowAlternatives ++ others) false := by
      rw [Node.choiceOf_eq, Node.choiceOf_eq, habsent', Node.kept_append, Node.kept_append, hkept]
    rw [hsame]
    exact .refl _
  · have hall : Interchangeable (kept (rowAlternatives tree ++ others))
        (kept (rows.flatMap rowAlternatives ++ others)) := by
      rw [Node.kept_append, Node.kept_append]
      exact hinterchangeable.append ⟨rfl, fun _ _ _ _ => rfl⟩
    have hseveral (candidates : List Node) (h : 2 ≤ (kept candidates).length) :
        2 ≤ (kept (candidates ++ others)).length := by
      rw [Node.kept_append, List.length_append]
      omega
    have hsame := SameElement.choiceOf habsent' hall (hseveral _ htwo) (hseveral _ htwo')
    rwa [Node.choiceOf_eq, Node.choiceOf_eq, ← Usage.simplify_choice (hseveral _ htwo),
      ← Usage.simplify_choice (hseveral _ htwo')] at hsame

end Spreading

end Match

/-! ## §2 Usages with a group of alternatives -/

namespace Usage

open Node (Regular)

/-- The tree of a choice between the usage and two words. No alternative of it is lost. -/
def besideWords (usage : Text) : Except UsageError Node := parse (usage ++ "|x|x".toList)

/-- The usage adds the same to a choice when it is grouped: it has to be there, one of the
alternatives that it adds by itself is an open slot, or they are those that the group adds. -/
def isGroupable (usage : Text) : Bool :=
  match parse usage, besideWords usage, besideWords ('(' :: (usage ++ [')'])) with
  | .ok tree, .ok alone, .ok grouped => !tree.optional || alone.offersSlot || alone == grouped
  | _, _, _ => false

section Texts

variable {first second rest : Text} {symbols others behind : List Symbol} {rows : List Node}
  {tree : Node}

/-- A usage that compiles is read as rows. -/
theorem exists_rows_of_parse (h : parse first = .ok tree) :
    ∃ symbols rows, Reads first symbols ∧ Builds [] {} symbols tree ∧ HasRows {} symbols rows ∧
      tree = (choiceOf (spread rows) false).simplify ∧ ∀ node ∈ rows, node.Regular := by
  obtain ⟨found, hfound, hbuilds⟩ := parse_eq_ok_iff.mp h
  obtain ⟨rows, hrows, htree⟩ := exists_hasRows_of_builds hbuilds
  have hsound : ∀ symbol ∈ found.map Token.symbol, symbol.Sound :=
    List.forall_mem_map.mpr fun token htoken => sound_of_tokensFrom hfound token htoken
  exact ⟨_, rows, reads_of_tokens hfound, hbuilds, hrows, htree,
    hrows.regular hsound Row.isRegular_start⟩

/-- A group is a row of its own. -/
theorem hasRows_group (h : Builds [] {} symbols tree) (hregular : tree.Regular) :
    HasRows {} (.opening .round :: (symbols ++ [.closing .round])) [tree] := by
  have hnode : (Row.push {} tree).node = tree := by
    cases hempty : tree.isEmpty with
    | false => exact node_push hempty
    | true =>
      rw [hregular.eq_nothing hempty]
      rfl
  have hrows := hasRows_nil (Row.push {} tree)
  rw [hnode] at hrows
  have hgroup : HasRows {} ((.opening .round :: (symbols ++ [.closing .round])) ++ []) [tree] :=
    hrows.element (fun hbuilds => by simpa using Builds.group h hbuilds)
      (fun hbuilds => by simpa using Builds.group h hbuilds) fun _ => hregular
  simpa using hgroup

theorem getLast?_group (text : Text) : ('(' :: (text ++ [')'])).getLast? ≠ some '\\' := by
  rw [← List.cons_append, List.getLast?_concat]
  simp

theorem reads_group (h : Reads first symbols) (hlast : first.getLast? ≠ some '\\') :
    Reads ('(' :: (first ++ [')'])) (.opening .round :: (symbols ++ [.closing .round])) :=
  .single '(' (h.append hlast (keepsApart_cons (.inl rfl) _) (.single ')' .nil rfl rfl)) rfl rfl

/-- Beside two words the rows of a usage are spread out, and none of their alternatives is lost. -/
theorem besideWords_eq_choiceOf (h : Reads first symbols) (hlast : first.getLast? ≠ some '\\')
    (hrows : HasRows {} symbols rows) :
    besideWords first = .ok (choiceOf (rows.flatMap rowAlternatives ++
      [.literal {} "x".toList, .literal {} "x".toList]) false) := by
  have hwords : tokens "x|x".toList =
      .ok [⟨0, "x".toList⟩, ⟨1, "|".toList⟩, ⟨2, "x".toList⟩] :=
    Match.eq_ok_of_toOption (by decide +kernel)
  have hreads : Reads (first ++ "|x|x".toList)
      (symbols ++ [.bar, .word "x".toList, .bar, .word "x".toList]) :=
    h.append hlast (keepsApart_cons (.inl rfl) _) (.single '|' (reads_of_tokens hwords) rfl rfl)
  have hbuilds : Builds [] {} (symbols ++ [.bar, .word "x".toList, .bar, .word "x".toList]) _ :=
    hrows.builds_bar (.leaf rfl (.bar (.leaf rfl (.finish _ _))))
  have hseveral : 2 ≤ (kept (rows.flatMap rowAlternatives ++
      [.literal {} "x".toList, .literal {} "x".toList])).length := by
    rw [Node.kept_append, List.length_append]
    exact Nat.le_add_left _ _
  rw [besideWords, parse_of_reads hreads hbuilds, List.nil_append, List.append_assoc]
  exact congrArg Except.ok (simplify_choice hseveral)

/-- What it is for a usage to be groupable, told from its rows. -/
theorem cases_of_isGroupable (h : Reads first symbols) (hlast : first.getLast? ≠ some '\\')
    (hbuilds : Builds [] {} symbols tree) (hregular : tree.Regular) (hrows : HasRows {} symbols rows)
    (hgroupable : isGroupable first = true) :
    tree.optional = false ∨ (kept (rows.flatMap rowAlternatives)).any Node.isOpen = true ∨
      kept (rowAlternatives tree) = kept (rows.flatMap rowAlternatives) := by
  have hgroup := besideWords_eq_choiceOf (reads_group h hlast) (getLast?_group first)
    (hasRows_group hbuilds hregular)
  unfold isGroupable at hgroupable
  rw [parse_of_reads h hbuilds, besideWords_eq_choiceOf h hlast hrows, hgroup] at hgroupable
  simp only [Bool.or_eq_true, Bool.not_eq_true', beq_iff_eq, Node.choiceOf_eq, Node.offersSlot,
    Node.choice.injEq, Node.kept_append, List.any_append] at hgroupable
  rcases hgroupable with (hneeded | hopen | hword) | hsame
  · exact .inl hneeded
  · exact .inr (.inl hopen)
  · cases hword
  · rw [List.flatMap_singleton] at hsame
    exact .inr (.inr (List.append_cancel_right hsame.2).symm)

/-- A choice between two usages, and something behind it. -/
theorem parse_operands (hfirst : Reads first symbols) (hlast : first.getLast? ≠ some '\\')
    (hrows : HasRows {} symbols rows) (hsecond : Reads second others)
    (hlast' : second.getLast? ≠ some '\\') {rows' : List Node} (hrows' : HasRows {} others rows')
    (hrest : Reads rest behind) {result : Node}
    (hbuilds : Builds [] (Row.push {} (choiceOf (rows.flatMap rowAlternatives ++ spread rows')
      false).simplify) behind result) :
    parse ('(' :: (first ++ (' ' :: '|' :: ' ' :: (second ++ (')' :: ' ' :: rest))))) =
      .ok result := by
  have hclose : Reads (')' :: ' ' :: rest) (.closing .round :: behind) :=
    .single ')' (.blank rfl hrest) rfl rfl
  have hbar : Reads (' ' :: '|' :: ' ' :: (second ++ (')' :: ' ' :: rest)))
      (.bar :: (others ++ .closing .round :: behind)) :=
    .blank rfl (.single '|' (.blank rfl
      (hsecond.append hlast' (keepsApart_cons (.inl rfl) _) hclose)) rfl rfl)
  have hall : Reads ('(' :: (first ++ (' ' :: '|' :: ' ' :: (second ++ (')' :: ' ' :: rest)))))
      (.opening .round :: (symbols ++ .bar :: (others ++ .closing .round :: behind))) :=
    .single '(' (hfirst.append hlast (keepsApart_cons (.inr rfl) _) hbar) rfl rfl
  have hinner : Builds [] {} (symbols ++ .bar :: others) _ := hrows.builds_bar (hrows'.builds _)
  rw [List.nil_append] at hinner
  refine parse_of_reads hall ?_
  have hgroup : Builds [] {} (.opening .round :: ((symbols ++ .bar :: others) ++
      .closing .round :: behind)) result := .group hinner hbuilds
  simpa using hgroup

end Texts

end Usage

namespace Match

open Line (Parsed)
open Usage (Row compile)

/-- Trees that are the same to a sequence find the same in every line. -/
theorem parseWindow_of_slots {tree other : Node}
    (h : ∀ line, slotOf line tree = slotOf line other) (w : Window) :
    parseWindow tree w = parseWindow other w := by
  have hjudge (line : Parsed) : judge tree line = judge other line := by
    rw [judge, judge, process, process, h]
  simp only [parseWindow, hjudge]

/-- **Parentheses around the first alternatives of a choice.** If three usages compile, then so do
the two choices between the first and the second of them in front of the third, whether or not the
first is in parentheses. They find the same in every line, if the first one is groupable. -/
theorem parseWindow_groupedOperand {first second rest : Text} {a b r : Node}
    (hfirst : compile first false = .ok a) (hsecond : compile second false = .ok b)
    (hrest : compile rest false = .ok r) (hlast : first.getLast? ≠ some '\\')
    (hlast' : second.getLast? ≠ some '\\') :
    ∃ grouped plain,
      compile ("((".toList ++ first ++ ") | ".toList ++ second ++ ") ".toList ++ rest) false =
        .ok grouped ∧
      compile ("(".toList ++ first ++ " | ".toList ++ second ++ ") ".toList ++ rest) false =
        .ok plain ∧
      (Usage.isGroupable first = true → ∀ w, parseWindow grouped w = parseWindow plain w) := by
  obtain ⟨symbols, rows, hreads, hbuilds, hrows, htree, hregular⟩ :=
    Usage.exists_rows_of_parse (Usage.parse_of_compile hfirst)
  obtain ⟨others, rows', hreads', -, hrows', -, -⟩ :=
    Usage.exists_rows_of_parse (Usage.parse_of_compile hsecond)
  obtain ⟨behind, _, hreadsRest, hbuildsRest, -, -, -⟩ :=
    Usage.exists_rows_of_parse (Usage.parse_of_compile hrest)
  have hregularFirst := Usage.regular_of_parse (Usage.parse_of_compile hfirst)
  have hbehind := Usage.accepts_of_sentence (Usage.continues_of_builds hbuildsRest).expression
  obtain ⟨grouped, hgrouped⟩ := hbehind []
    (Row.push {} (choiceOf (rowAlternatives a ++ spread rows') false).simplify)
  obtain ⟨plain, hplain⟩ := hbehind []
    (Row.push {} (choiceOf (rows.flatMap rowAlternatives ++ spread rows') false).simplify)
  have hparse {tree : Node} := @Usage.parse_operands _ _ _ _ _ _ _ hreads hlast hrows hreads' hlast'
    _ hrows' hreadsRest tree
  have hparseGrouped := Usage.parse_operands (Usage.reads_group hreads hlast)
    (Usage.getLast?_group first) (Usage.hasRows_group hbuilds hregularFirst) hreads' hlast' hrows'
    hreadsRest (by simpa using hgrouped)
  refine ⟨grouped, plain, ?_, ?_, fun hgroupable w => ?_⟩
  · have htext : "((".toList ++ first ++ ") | ".toList ++ second ++ ") ".toList ++ rest =
        '(' :: ('(' :: (first ++ [')']) ++
          (' ' :: '|' :: ' ' :: (second ++ (')' :: ' ' :: rest)))) := by
      simp
    rw [htext, compile, hparseGrouped]
    rfl
  · have htext : "(".toList ++ first ++ " | ".toList ++ second ++ ") ".toList ++ rest =
        '(' :: (first ++ (' ' :: '|' :: ' ' :: (second ++ (')' :: ' ' :: rest)))) := by
      simp
    rw [htext, compile, hparse hplain]
    rfl
  · have helement := sameElement_of_grouped hrows.ne_nil hregular htree
      (Usage.cases_of_isGroupable hreads hlast hbuilds hregularFirst hrows hgroupable)
      (spread rows')
    obtain ⟨plain', hplain', hslots⟩ := exists_builds_of_same hgrouped (.refl [])
      ((SameRow.refl {}).push helement)
    obtain rfl : plain' = plain := Except.ok.inj ((hparse hplain').symm.trans (hparse hplain))
    exact parseWindow_of_slots hslots w

/-- A choice that is the last alternative of the group stays one, and it is spread out without the
parentheses. No line tells the two trees apart. -/
theorem parseWindow_groupedOperand_nested :
    ∃ grouped plain, compile "((e | (c | d)) | b) r".toList false = .ok grouped ∧
      compile "(e | (c | d) | b) r".toList false = .ok plain ∧ grouped ≠ plain ∧
      ∀ w, parseWindow grouped w = parseWindow plain w := by
  have hcompiles : ((compile "e | (c | d)".toList false).toOption.isSome &&
      (compile "b".toList false).toOption.isSome && (compile "r".toList false).toOption.isSome) =
        true := by decide +kernel
  simp only [Bool.and_eq_true, Option.isSome_iff_exists] at hcompiles
  obtain ⟨⟨⟨a, hfirst⟩, b, hsecond⟩, r, hrest⟩ := hcompiles
  obtain ⟨grouped, plain, hgrouped, hplain, hsame⟩ := parseWindow_groupedOperand
    (eq_ok_of_toOption hfirst) (eq_ok_of_toOption hsecond) (eq_ok_of_toOption hrest) (by decide)
    (by decide)
  refine ⟨grouped, plain, hgrouped, hplain, ?_, hsame (by decide +kernel)⟩
  rintro rfl
  have hne : (compile "((e | (c | d)) | b) r".toList false).toOption ≠
      (compile "(e | (c | d) | b) r".toList false).toOption := by decide +kernel
  exact hne (congrArg Except.toOption (hgrouped.trans hplain.symm))

/-- Of `a|` only one alternative is left when it is grouped. The group takes nothing where the choice
should go on to `b`, so the line `b r` does not fit. -/
theorem not_forall_parseWindow_groupedOperand :
    ¬ ∀ (first second rest : Text) (a b r grouped plain : Node),
      compile first false = .ok a → compile second false = .ok b → compile rest false = .ok r →
      first.getLast? ≠ some '\\' → second.getLast? ≠ some '\\' → rest.getLast? ≠ some '\\' →
      compile ("((".toList ++ first ++ ") | ".toList ++ second ++ ") ".toList ++ rest) false =
        .ok grouped →
      compile ("(".toList ++ first ++ " | ".toList ++ second ++ ") ".toList ++ rest) false =
        .ok plain →
      ∀ source, parse grouped source = parse plain source := by
  intro h
  have hcompiles : ((compile "a|".toList false).toOption.isSome &&
      (compile "b".toList false).toOption.isSome && (compile "r".toList false).toOption.isSome) =
        true := by decide +kernel
  simp only [Bool.and_eq_true, Option.isSome_iff_exists] at hcompiles
  obtain ⟨⟨⟨a, hfirst⟩, b, hsecond⟩, r, hrest⟩ := hcompiles
  obtain ⟨grouped, hgrouped, hnone⟩ := Option.map_eq_some_iff.mp
    (show (compile "((a|) | b) r".toList false).toOption.map (fun tree =>
      (parse tree "b r".toList).toOption) = some (some none) by decide +kernel)
  obtain ⟨plain, hplain, hsome⟩ := Option.map_eq_some_iff.mp
    (show (compile "(a| | b) r".toList false).toOption.map (fun tree =>
      (parse tree "b r".toList).toOption.map Option.isSome) = some (some true) by decide +kernel)
  have hsame := h "a|".toList "b".toList "r".toList a b r grouped plain (eq_ok_of_toOption hfirst)
    (eq_ok_of_toOption hsecond) (eq_ok_of_toOption hrest) (by decide) (by decide) (by decide)
    (eq_ok_of_toOption hgrouped) (eq_ok_of_toOption hplain) "b r".toList
  rw [← hsame, hnone] at hsome
  cases hsome

end Match

end Synopsis
