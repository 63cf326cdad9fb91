/-
Synopsis.Proofs.Usage.Shape — what every compiled tree looks like.

A regular tree has no needless groups and no needless marks: a sequence and a choice
have two members or more, none of which is nothing, and they are optional if their
members say so. Nothing stands only at the root or as the whole value of a flag.
Literals and keys are not empty, and the name of a parameter ends at its bracket.

Every usage compiles to a regular tree (`regular_of_parse`). Each rule of the grammar
keeps what has been read regular (`regular_of_builds`), and the symbols it begins with
are sound (`sound_of_tokensFrom`).
-/
import Synopsis.Proofs.Usage.Grammar
import Mathlib.Data.List.TakeWhile

namespace Synopsis

/-! ## §1 Regular trees -/

namespace Node

/-- The tree has the shape of a compiled one. -/
inductive Regular : Node → Prop where
  | literal {occ : Occurrence} {name : Text} (hname : name ≠ []) : Regular (.literal occ name)
  | parameter {occ : Occurrence} {name : Text} (hname : '>' ∉ name) : Regular (.parameter occ name)
  | flag {occ : Occurrence} {key : Text} (hkey : key ≠ []) : Regular (.flag occ key)
  | setting {occ : Occurrence} {key : Text} {value : Node} (hkey : key ≠ [])
    (hvalue : Regular value) : Regular (.setting occ key value)
  | sequence {occ : Occurrence} {children : List Node} (hlength : 2 ≤ children.length)
    (hchildren : ∀ child ∈ children, Regular child)
    (hfilled : ∀ child ∈ children, child.isEmpty = false)
    (hoptional : (∀ child ∈ children, child.optional = true) → occ.optional = true) :
    Regular (.sequence occ children)
  | choice {occ : Occurrence} {alternatives : List Node} (hlength : 2 ≤ alternatives.length)
    (halternatives : ∀ alternative ∈ alternatives, Regular alternative)
    (hfilled : ∀ alternative ∈ alternatives, alternative.isEmpty = false)
    (hoptional : ∀ alternative ∈ alternatives, alternative.optional = true → occ.optional = true) :
    Regular (.choice occ alternatives)
  | nothing : Regular .nothing

@[simp] theorem isEmpty_withOcc (occ : Occurrence) (node : Node) :
    (node.withOcc occ).isEmpty = node.isEmpty := by
  cases node <;> rfl

/-- A regular tree that stands for nothing has no marks. -/
theorem Regular.eq_nothing {node : Node} (h : node.Regular) (hempty : node.isEmpty = true) :
    node = .nothing := by
  cases h with
  | nothing => rfl
  | _ => cases hempty

/-- More marks leave a tree regular. -/
theorem Regular.withOcc {node : Node} (h : node.Regular) {occ : Occurrence}
    (hoptional : node.optional = true → occ.optional = true) : (node.withOcc occ).Regular := by
  cases h with
  | literal hname => exact .literal hname
  | parameter hname => exact .parameter hname
  | flag hkey => exact .flag hkey
  | setting hkey hvalue => exact .setting hkey hvalue
  | sequence hlength hchildren hfilled hall =>
    exact .sequence hlength hchildren hfilled fun h => hoptional (hall h)
  | choice hlength halternatives hfilled hany =>
    exact .choice hlength halternatives hfilled fun node hnode h => hoptional (hany node hnode h)
  | nothing => exact .nothing

theorem Regular.setOptional {node : Node} (h : node.Regular) : (node.setOptional true).Regular :=
  h.withOcc fun _ => rfl

theorem Regular.setRepeating {node : Node} (h : node.Regular) (repeating : Bool) :
    (node.setRepeating repeating).Regular :=
  h.withOcc id

/-- A sequence of several regular elements is regular. -/
theorem regular_sequenceOf {children : List Node} (hlength : 2 ≤ children.length)
    (hchildren : ∀ child ∈ children, child.Regular ∧ child.isEmpty = false) :
    (sequenceOf children false).Regular :=
  .sequence hlength (fun child h => (hchildren child h).1) (fun child h => (hchildren child h).2)
    fun h => List.all_eq_true.mpr h

theorem any_congr_of_mem {α : Type} {p q : α → Bool} {as : List α} (h : ∀ a ∈ as, p a = q a) :
    as.any p = as.any q := by
  induction as with
  | nil => rfl
  | cons a as ih =>
    rw [List.any_cons, List.any_cons, h a (by simp), ih fun b hb => h b (by simp [hb])]

/-- A choice between candidates none of which is nothing keeps them all. -/
theorem choiceOf_filled {candidates : List Node} (h : ∀ node ∈ candidates, node.isEmpty = false)
    (optional : Bool) :
    choiceOf candidates optional =
      .choice ⟨optional || candidates.any Node.optional, false⟩ candidates := by
  have hkept : candidates.filter (!·.isEmpty) = candidates :=
    List.filter_eq_self.mpr fun node hnode => by simp [h node hnode]
  have hany : candidates.any (fun node => node.isEmpty || node.optional) =
      candidates.any Node.optional :=
    any_congr_of_mem fun node hnode => by simp [h node hnode]
  rw [choiceOf, hkept, hany]

/-- A choice between regular candidates is regular once it is simplified. -/
theorem regular_simplify_choiceOf {candidates : List Node}
    (h : ∀ candidate ∈ candidates, candidate.Regular) :
    (choiceOf candidates false).simplify.Regular := by
  unfold choiceOf
  have hkept : ∀ node ∈ candidates.filter (!·.isEmpty),
      node.Regular ∧ node.isEmpty = false ∧ (node.optional = true →
        (false || candidates.any fun node => node.isEmpty || node.optional) = true) := by
    intro node hnode
    obtain ⟨hmem, hfilled⟩ := List.mem_filter.mp hnode
    refine ⟨h node hmem, by simpa using hfilled, fun hoptional => ?_⟩
    rw [Bool.false_or]
    exact List.any_eq_true.mpr ⟨node, hmem, by simp [hoptional]⟩
  generalize candidates.filter (!·.isEmpty) = kept at hkept
  match kept with
  | [] => exact .nothing
  | [only] =>
    refine (hkept only (by simp)).1.withOcc fun hoptional => ?_
    simp [hoptional]
  | node :: next :: others =>
    exact .choice (by simp) (fun node hnode => (hkept node hnode).1)
      (fun node hnode => (hkept node hnode).2.1) fun node hnode => (hkept node hnode).2.2

end Node

namespace Usage

open Node (Regular)

/-! ## §2 Rows -/

namespace Row

/-- What has been read of a row is regular, and none of its elements is nothing. -/
def IsRegular (row : Row) : Prop := ∀ item ∈ row.items, item.Regular ∧ item.isEmpty = false

theorem isRegular_start : IsRegular {} := by simp [IsRegular]

theorem IsRegular.push {row : Row} (h : row.IsRegular) {node : Node} (hnode : node.Regular) :
    (row.push node).IsRegular := by
  unfold Row.push
  split
  · exact h
  · rename_i hfilled
    intro item hitem
    rcases List.mem_append.mp hitem with hitem | hitem
    · exact h item hitem
    · rw [List.mem_singleton.mp hitem]
      exact ⟨hnode, by simpa using hfilled⟩

theorem IsRegular.repeatLast {row : Row} (h : row.IsRegular) : row.repeatLast.IsRegular := by
  unfold Row.repeatLast
  split
  · exact h
  · intro item hitem
    obtain ⟨index, hindex⟩ := List.mem_iff_getElem?.mp hitem
    rw [List.getElem?_modify] at hindex
    obtain ⟨before, hbefore, rfl⟩ := Option.map_eq_some_iff.mp hindex
    obtain ⟨hregular, hfilled⟩ := h before (List.mem_of_getElem? hbefore)
    split
    · exact ⟨hregular.setRepeating true, by simpa [Node.setRepeating] using hfilled⟩
    · exact ⟨hregular, hfilled⟩

theorem IsRegular.node {row : Row} (h : row.IsRegular) : row.node.Regular := by
  unfold Row.node
  split
  · exact .nothing
  · rename_i item hitems
    exact (h item (by simp [hitems])).1
  · rename_i items hnotNil hnotOne
    refine Node.regular_sequenceOf ?_ h
    match hitems : row.items with
    | [] => exact absurd hitems hnotNil
    | [item] => exact absurd hitems (hnotOne item)
    | item :: next :: items => simp

end Row

/-- An alternative that a row adds is the row itself or one of its own alternatives, or it is
nothing, if the row may be left out. -/
theorem cases_of_mem_rowAlternatives {node alternative : Node}
    (hmem : alternative ∈ rowAlternatives node) :
    alternative = node ∨ (alternative = .nothing ∧ node.optional = true) ∨
      ∃ occ alternatives, node = .choice occ alternatives ∧ alternative ∈ alternatives := by
  unfold rowAlternatives at hmem
  split at hmem
  · split at hmem
    · exact .inl (List.mem_singleton.mp hmem)
    · rcases List.mem_append.mp hmem with hmem | hmem
      · exact .inr (.inr ⟨_, _, rfl, hmem⟩)
      · split at hmem
        · rename_i hoptional
          exact .inr (.inl ⟨List.mem_singleton.mp hmem, hoptional⟩)
        · cases hmem
  · exact .inl (List.mem_singleton.mp hmem)

/-- The alternatives that a regular row adds are regular. -/
theorem regular_rowAlternatives {node : Node} (h : node.Regular) :
    ∀ alternative ∈ rowAlternatives node, alternative.Regular := by
  intro alternative hmem
  rcases cases_of_mem_rowAlternatives hmem with rfl | ⟨rfl, -⟩ | ⟨occ, alternatives, rfl, hmember⟩
  · exact h
  · exact .nothing
  · cases h with
    | choice _ halternatives _ _ => exact halternatives alternative hmember

theorem regular_bracketed (bracket : Bracket) {node : Node} (h : node.Regular) :
    (bracketed bracket node).Regular := by
  unfold bracketed
  split
  · exact h.setOptional
  · exact h

/-! ## §3 Symbols -/

/-- Words and keys are not empty, and the name of a parameter ends at its bracket. -/
def Symbol.Sound : Symbol → Prop
  | .word name => name ≠ []
  | .flag key => key ≠ []
  | .parameter name => '>' ∉ name
  | _ => True

theorem Symbol.Sound.regular_leaf {symbol : Symbol} (h : symbol.Sound)
    (hvalue : symbol.isValue = true) : symbol.leaf.Regular := by
  cases symbol with
  | word name => exact .literal h
  | flag key => exact .flag h
  | parameter name => exact .parameter h
  | equals => exact .literal (by simp)
  | _ => cases hvalue

theorem regular_settingOf (optional : Bool) {key : Text} {value : Node} (hkey : key ≠ [])
    (h : value.Regular) : (settingOf optional key value).Regular := by
  unfold settingOf
  split
  · exact .setting hkey h.setOptional
  · exact .setting hkey h

/-- The tree of sound symbols is regular if what was read before them is. -/
theorem regular_of_builds {done : List Node} {row : Row} {symbols : List Symbol} {result : Node}
    (h : Builds done row symbols result) (hsound : ∀ symbol ∈ symbols, symbol.Sound)
    (hdone : ∀ node ∈ done, node.Regular) (hrow : row.IsRegular) : result.Regular := by
  induction h with
  | finish done row =>
    refine Node.regular_simplify_choiceOf fun candidate hcandidate => ?_
    rcases List.mem_append.mp hcandidate with hmem | hmem
    · exact hdone candidate hmem
    · rw [List.mem_singleton.mp hmem]
      exact hrow.node
  | group _ _ ihinner ihrest =>
    have hinner := ihinner (fun symbol hsymbol => hsound symbol (by simp [hsymbol])) (by simp)
      Row.isRegular_start
    exact ihrest (fun symbol hsymbol => hsound symbol (by simp [hsymbol])) hdone
      (hrow.push (regular_bracketed _ hinner))
  | bar _ ih =>
    refine ih (fun symbol hsymbol => hsound symbol (by simp [hsymbol])) ?_ Row.isRegular_start
    intro node hnode
    rcases List.mem_append.mp hnode with hmem | hmem
    · exact hdone node hmem
    · exact regular_rowAlternatives hrow.node node hmem
  | marker _ _ ih =>
    exact ih (fun symbol hsymbol => hsound symbol (by simp [hsymbol])) hdone hrow.repeatLast
  | flag _ _ ih =>
    have hkey := hsound _ List.mem_cons_self
    exact ih (fun symbol hsymbol => hsound symbol (by simp [hsymbol])) hdone
      (hrow.push (.flag hkey))
  | setting optional hvalue _ ih =>
    have hkey := hsound _ List.mem_cons_self
    have hleaf := (hsound _ (by simp)).regular_leaf hvalue
    exact ih (fun symbol hsymbol => hsound symbol (by simp [hsymbol])) hdone
      (hrow.push (regular_settingOf optional hkey hleaf))
  | settingGroup optional _ _ ihinner ihrest =>
    have hkey := hsound _ List.mem_cons_self
    have hinner := ihinner (fun symbol hsymbol => hsound symbol (by simp [hsymbol])) (by simp)
      Row.isRegular_start
    exact ihrest (fun symbol hsymbol => hsound symbol (by simp [hsymbol])) hdone
      (hrow.push (regular_settingOf optional hkey (regular_bracketed _ hinner)))
  | leaf hleaf _ ih =>
    have hregular := (hsound _ List.mem_cons_self).regular_leaf (Symbol.isValue_of_isLeaf hleaf)
    exact ih (fun symbol hsymbol => hsound symbol (by simp [hsymbol])) hdone (hrow.push hregular)

/-! ## §4 Compiled trees -/

theorem decode_ne_nil {text : Text} (h : text ≠ []) : decode text ≠ [] := by
  unfold decode
  split
  · simp
  · simp
  · exact absurd rfl h

/-- The name of a parameter that was cut off a text ends before the first `>`. -/
theorem notMem_of_takeToken {position : Nat} {previous : Option Char} {c : Char}
    {rest name after : Text} (h : takeToken position previous c rest = .ok ('<' :: name, after)) :
    '>' ∉ name.dropLast := by
  obtain ⟨-, happend⟩ := takeToken_append h
  obtain rfl : '<' = c := (List.cons.inj happend).1
  unfold takeToken at h
  rw [if_pos rfl] at h
  split at h
  · cases h
  · rename_i close tail hdrop
    simp only [Except.ok.injEq, Prod.mk.injEq, List.cons.injEq, List.cons_append, true_and] at h
    obtain ⟨rfl, -⟩ := h
    rw [List.dropLast_concat]
    intro hmem
    simpa using List.mem_takeWhile_imp hmem

/-- A token that was cut off a text means a sound symbol. -/
theorem sound_of_takeToken {position : Nat} {previous : Option Char} {c : Char}
    {rest text after : Text} (h : takeToken position previous c rest = .ok (text, after))
    (start : Nat) : (Token.mk start text).symbol.Sound := by
  have hne := (takeToken_append h).1
  unfold Token.symbol
  split <;> simp only [Symbol.Sound]
  · rename_i name heq
    have htext : text = '<' :: name := heq
    subst htext
    exact notMem_of_takeToken h
  · exact decode_ne_nil (by simp)
  · exact decode_ne_nil hne

/-- All tokens of a usage mean sound symbols. -/
theorem sound_of_tokensFrom {position : Nat} {previous : Option Char} {text : Text}
    {found : List Token} (h : tokensFrom position previous text = .ok found) :
    ∀ token ∈ found, token.symbol.Sound := by
  fun_induction tokensFrom position previous text generalizing found with
  | case1 =>
    cases h
    simp
  | case2 _ _ _ _ _ ih => exact ih h
  | case3 => cases h
  | case4 position previous c rest hblank text after htaken ih =>
    generalize hothers : tokensFrom (position + text.length) text.getLast? after = others at h
    cases others with
    | error failure => cases h
    | ok others =>
      cases h
      intro token htoken
      rcases List.mem_cons.mp htoken with rfl | htoken
      · exact sound_of_takeToken htaken position
      · exact ih hothers token htoken

/-- Every usage compiles to a regular tree. -/
theorem regular_of_parse {usage : Text} {tree : Node} (h : parse usage = .ok tree) :
    tree.Regular := by
  obtain ⟨found, hfound, hbuilds⟩ := parse_eq_ok_iff.mp h
  refine regular_of_builds hbuilds ?_ (by simp) Row.isRegular_start
  intro symbol hsymbol
  obtain ⟨token, htoken, rfl⟩ := List.mem_map.mp hsymbol
  exact sound_of_tokensFrom hfound token htoken

theorem parse_of_compile {usage : Text} {tree : Node} (h : compile usage false = .ok tree) :
    parse usage = .ok tree := by
  unfold compile at h
  cases hparse : parse usage with
  | error failure => rw [hparse] at h; cases h
  | ok found => rw [hparse] at h; cases h; rfl

theorem exists_parse_of_compile {usage : Text} {tree : Node} (h : compile usage true = .ok tree) :
    ∃ found, parse usage = .ok found ∧ tree = found.commit := by
  unfold compile at h
  cases hparse : parse usage with
  | error failure => rw [hparse] at h; cases h
  | ok found => rw [hparse] at h; cases h; exact ⟨found, rfl, rfl⟩

end Usage

end Synopsis
