/-
Synopsis.Proofs.Usage.Structure — what a compiled tree is made of.

Every node of a compiled tree is well shaped, however deep it stands, and nothing stands
only at the root or as the whole value of a flag (`isWellShaped_of_compile`).

The leaves of the tree are, in their order, what the symbols of the usage stand for,
those left out that only say how the others belong together: brackets, bars, markers,
and the signs that flags have values (`leaves_of_compile`). None is lost, none stands
twice, and none changes its place. Whether an `=` is the sign of a value or a word shows
in what stands before it (`Before`). An element is read the same wherever its row has
been begun, so one induction over the grammar says what each rule adds to the leaves
(`leaves_of_builds`).
-/
import Synopsis.Node.Equality
import Synopsis.Proofs.Match.Soundness
import Synopsis.Proofs.Usage.Shape

namespace Synopsis

/-! ## §1 Nodes of a tree -/

namespace Node

/-- What a node is put together of: the members of a group, or the value of a flag. -/
def parts : Node → List Node
  | .setting _ _ value => [value]
  | .sequence _ children => children
  | .choice _ alternatives => alternatives
  | _ => []

mutual

/-- All nodes of the tree, each before those it is put together of. -/
def nodes : Node → List Node
  | .setting occ key value => .setting occ key value :: value.nodes
  | .sequence occ children => .sequence occ children :: nodesOfAll children
  | .choice occ alternatives => .choice occ alternatives :: nodesOfAll alternatives
  | node => [node]

def nodesOfAll : List Node → List Node
  | [] => []
  | node :: others => node.nodes ++ nodesOfAll others

end

theorem nodesOfAll_eq_flatMap (trees : List Node) : nodesOfAll trees = trees.flatMap nodes := by
  induction trees with
  | nil => rfl
  | cons tree trees ih => rw [nodesOfAll, ih, List.flatMap_cons]

theorem nodes_eq (node : Node) : node.nodes = node :: node.parts.flatMap nodes := by
  cases node with
  | setting => simp [nodes, parts]
  | sequence => rw [nodes, nodesOfAll_eq_flatMap, parts]
  | choice => rw [nodes, nodesOfAll_eq_flatMap, parts]
  | _ => rfl

/-- The node by itself has the shape of one in a compiled tree. -/
def IsWellShaped : Node → Prop
  | .literal _ name => name ≠ []
  | .parameter _ name => '>' ∉ name
  | .flag _ key | .setting _ key _ => key ≠ []
  | .sequence occ children => 2 ≤ children.length ∧ (∀ child ∈ children, child.isEmpty = false) ∧
    ((∀ child ∈ children, child.optional = true) → occ.optional = true)
  | .choice occ alternatives => 2 ≤ alternatives.length ∧
    (∀ alternative ∈ alternatives, alternative.isEmpty = false) ∧
    ((∃ alternative ∈ alternatives, alternative.optional = true) → occ.optional = true)
  | .empty occ => occ = {}
  | .hole _ => False

theorem Regular.isWellShaped {node : Node} (h : node.Regular) : node.IsWellShaped := by
  cases h with
  | literal hname => exact hname
  | parameter hname => exact hname
  | flag hkey => exact hkey
  | setting hkey _ => exact hkey
  | sequence hlength _ hfilled hoptional => exact ⟨hlength, hfilled, hoptional⟩
  | choice hlength _ hfilled hoptional =>
    exact ⟨hlength, hfilled, fun ⟨node, hnode, h⟩ => hoptional node hnode h⟩
  | nothing => rfl

/-- What a regular node is put together of is regular, and nothing is only the value of a flag. -/
theorem Regular.of_mem_parts {node part : Node} (h : node.Regular) (hpart : part ∈ node.parts) :
    part.Regular ∧ (part.isEmpty = true → ∃ occ key, node = .setting occ key part) := by
  cases h with
  | @setting occ key value _ hvalue =>
    obtain rfl := List.mem_singleton.mp hpart
    exact ⟨hvalue, fun _ => ⟨occ, key, rfl⟩⟩
  | sequence _ hchildren hfilled _ =>
    exact ⟨hchildren part hpart, fun hempty => by simp [hfilled part hpart] at hempty⟩
  | choice _ halternatives hfilled _ =>
    exact ⟨halternatives part hpart, fun hempty => by simp [hfilled part hpart] at hempty⟩
  | _ => cases hpart

/-- What a node inherits from all it is put together of holds of every tree. -/
theorem inductionOnParts {motive : Node → Prop}
    (step : ∀ node, (∀ part ∈ node.parts, motive part) → motive node) (node : Node) :
    motive node := by
  induction node using inductionOn with
  | setting occ key value ih => exact step _ (by simpa [parts] using ih)
  | sequence occ children ih => exact step _ ih
  | choice occ alternatives ih => exact step _ ih
  | _ => exact step _ (by simp [parts])

/-- All nodes of a regular tree are regular. -/
theorem Regular.of_mem_nodes {tree : Node} (h : tree.Regular) :
    ∀ node ∈ tree.nodes, node.Regular := by
  induction tree using inductionOnParts with
  | step tree ih =>
    intro node hnode
    rw [nodes_eq] at hnode
    rcases List.mem_cons.mp hnode with rfl | hnode
    · exact h
    · obtain ⟨part, hpart, hnode⟩ := List.mem_flatMap.mp hnode
      exact ih part hpart (h.of_mem_parts hpart).1 node hnode

/-! ## §2 Leaves of a tree -/

mutual

/-- The leaves of the tree in their order and without their marks. A flag with a value comes
before the leaves of the value. -/
def leaves : Node → List Node
  | .literal _ name => [.literal {} name]
  | .parameter _ name => [.parameter {} name]
  | .flag _ key => [.flag {} key]
  | .setting _ key value => .flag {} key :: value.leaves
  | .sequence _ children => leavesOfAll children
  | .choice _ alternatives => leavesOfAll alternatives
  | .empty _ | .hole _ => []

def leavesOfAll : List Node → List Node
  | [] => []
  | node :: nodes => node.leaves ++ leavesOfAll nodes

end

@[simp] theorem leavesOfAll_nil : leavesOfAll [] = [] := rfl

@[simp] theorem leavesOfAll_cons (node : Node) (nodes : List Node) :
    leavesOfAll (node :: nodes) = node.leaves ++ leavesOfAll nodes := rfl

@[simp] theorem leavesOfAll_append (nodes others : List Node) :
    leavesOfAll (nodes ++ others) = leavesOfAll nodes ++ leavesOfAll others := by
  induction nodes with
  | nil => rfl
  | cons node nodes ih => simp [ih]

@[simp] theorem leaves_withOcc (occ : Occurrence) (node : Node) :
    (node.withOcc occ).leaves = node.leaves := by
  cases node <;> simp [withOcc, leaves]

@[simp] theorem leaves_setOptional (optional : Bool) (node : Node) :
    (node.setOptional optional).leaves = node.leaves :=
  leaves_withOcc _ _

@[simp] theorem leaves_setRepeating (repeating : Bool) (node : Node) :
    (node.setRepeating repeating).leaves = node.leaves :=
  leaves_withOcc _ _

theorem leaves_of_isEmpty {node : Node} (h : node.isEmpty = true) : node.leaves = [] := by
  cases node with
  | empty => rfl
  | _ => cases h

/-- Candidates that are nothing have no leaves. -/
theorem leavesOfAll_filter_filled (nodes : List Node) :
    leavesOfAll (nodes.filter (!·.isEmpty)) = leavesOfAll nodes := by
  induction nodes with
  | nil => rfl
  | cons node nodes ih =>
    by_cases h : node.isEmpty = true
    · rw [List.filter_cons_of_neg (by simp [h]), ih, leavesOfAll_cons, leaves_of_isEmpty h,
        List.nil_append]
    · rw [List.filter_cons_of_pos (by simp [h]), leavesOfAll_cons, leavesOfAll_cons, ih]

theorem leavesOfAll_modify {nodes : List Node} {change : Node → Node}
    (h : ∀ node, (change node).leaves = node.leaves) (index : Nat) :
    leavesOfAll (nodes.modify index change) = leavesOfAll nodes := by
  induction nodes generalizing index with
  | nil => simp
  | cons node nodes ih =>
    cases index with
    | zero => simp [h]
    | succ index => simp [ih]

/-- A choice without a need to choose has the leaves of its candidates. -/
theorem leaves_simplify_choiceOf (candidates : List Node) :
    (choiceOf candidates false).simplify.leaves = leavesOfAll candidates := by
  rw [← leavesOfAll_filter_filled, choiceOf]
  generalize candidates.filter (!·.isEmpty) = kept
  cases kept with
  | nil => rfl
  | cons node others =>
    cases others with
    | nil => simp [simplify]
    | cons next others => rfl

end Node

namespace Usage

open Node (leavesOfAll leavesOfAll_append)

/-! ## §3 Elements of a usage -/

/-- What stands before a symbol, as far as it bears on the symbol. -/
inductive Before where
  /-- A flag that may have a value. -/
  | flag
  /-- Such a flag and a square bracket. -/
  | flagBracket
  /-- The sign that a flag has a value. -/
  | sign
  | other
deriving DecidableEq

namespace Before

def isSign : Before → Symbol → Bool
  | .flag, .equals | .flagBracket, .equals => true
  | _, _ => false

/-- What stands before the next symbol. A flag that is a value has none itself. -/
def next : Before → Symbol → Before
  | .sign, .flag _ => .other
  | _, .flag _ => .flag
  | .flag, .opening .square => .flagBracket
  | .flag, .equals | .flagBracket, .equals => .sign
  | _, _ => .other

end Before

/-- The symbols that are neither brackets, bars and markers nor signs of values. -/
def elements (before : Before) : List Symbol → List Symbol
  | [] => []
  | symbol :: symbols =>
    (if symbol.isValue && !before.isSign symbol then [symbol] else []) ++
      elements (before.next symbol) symbols

section Elements

variable {before : Before} {symbols : List Symbol}

theorem elements_append (rest : List Symbol) :
    elements before (symbols ++ rest) =
      elements before symbols ++ elements (symbols.foldl Before.next before) rest := by
  induction symbols generalizing before with
  | nil => rfl
  | cons symbol symbols ih => simp only [List.cons_append, elements, ih, List.foldl_cons,
      List.append_assoc]

/-- Closing brackets, bars and markers are no elements, and nothing before one of them bears on
what comes after it. -/
theorem elements_of_ends {symbol : Symbol}
    (h : symbol = .bar ∨ symbol = .marker ∨ ∃ bracket, symbol = .closing bracket) :
    elements before (symbol :: symbols) = elements .other symbols := by
  obtain rfl | rfl | ⟨bracket, rfl⟩ := h <;> cases before <;> rfl

/-- The elements of a group are those inside it. -/
theorem elements_group (bracket : Bracket) (inner : List Symbol)
    (hbefore : before = .other ∨ before = .sign) :
    elements before (.opening bracket :: (inner ++ .closing bracket :: symbols)) =
      elements .other inner ++ elements .other symbols := by
  have hopening : elements before (.opening bracket :: (inner ++ .closing bracket :: symbols)) =
      elements .other (inner ++ .closing bracket :: symbols) := by
    rcases hbefore with rfl | rfl <;> rfl
  rw [hopening, elements_append, elements_of_ends (.inr (.inr ⟨bracket, rfl⟩))]

theorem elements_flag (key : Text) :
    elements .other (.flag key :: symbols) = .flag key :: elements .flag symbols := rfl

/-- A flag without a value does not bear on what comes after it. -/
theorem elements_flag_of_bare (h : startsValue symbols = false) :
    elements .flag symbols = elements .other symbols := by
  cases symbols with
  | nil => rfl
  | cons symbol symbols =>
    cases symbol with
    | equals => cases h
    | opening bracket =>
      cases bracket with
      | round => rfl
      | square =>
        cases symbols with
        | nil => rfl
        | cons next symbols =>
          cases next with
          | equals => cases h
          | _ => rfl
    | _ => rfl

theorem elements_valueSign (optional : Bool) :
    elements .flag (valueSign optional ++ symbols) = elements .sign symbols := by
  cases optional <;> rfl

theorem elements_valueClose (optional : Bool) :
    elements .other (valueClose optional ++ symbols) = elements .other symbols := by
  cases optional <;> rfl

theorem elements_sign {symbol : Symbol} (h : symbol.isValue = true) :
    elements .sign (symbol :: symbols) = symbol :: elements .other symbols := by
  cases symbol <;> first | rfl | cases h

theorem elements_leaf {symbol : Symbol} (h : symbol.isLeaf = true) :
    elements .other (symbol :: symbols) = symbol :: elements .other symbols := by
  cases symbol <;> first | rfl | cases h

end Elements

/-! ## §4 Rows -/

theorem leaves_push (row : Row) (node : Node) :
    leavesOfAll (row.push node).items = leavesOfAll row.items ++ node.leaves := by
  unfold Row.push
  split
  · rename_i hempty
    rw [Node.leaves_of_isEmpty hempty, List.append_nil]
  · simp

theorem leaves_repeatLast (row : Row) :
    leavesOfAll row.repeatLast.items = leavesOfAll row.items := by
  unfold Row.repeatLast
  split
  · rfl
  · exact Node.leavesOfAll_modify (Node.leaves_setRepeating true) _

theorem leaves_row (row : Row) : row.node.leaves = leavesOfAll row.items := by
  unfold Row.node
  split
  · rename_i hitems
    rw [hitems]
    rfl
  · rename_i item hitems
    simp [hitems]
  · rfl

/-- The alternatives that a row adds have its leaves. -/
theorem leaves_rowAlternatives (node : Node) :
    leavesOfAll (rowAlternatives node) = node.leaves := by
  unfold rowAlternatives
  split
  · rename_i occ alternatives
    split
    · simp
    · rw [leavesOfAll_append]
      split <;> simp [Node.leaves, Node.nothing]
  · simp

theorem leaves_bracketed (bracket : Bracket) (node : Node) :
    (bracketed bracket node).leaves = node.leaves := by
  unfold bracketed
  split
  · exact Node.leaves_setOptional true node
  · rfl

theorem leaves_settingOf (optional : Bool) (key : Text) (value : Node) :
    (settingOf optional key value).leaves = .flag {} key :: value.leaves := by
  unfold settingOf
  split <;> simp [Node.leaves]

theorem leaves_leaf {symbol : Symbol} (h : symbol.isValue = true) :
    symbol.leaf.leaves = [symbol.leaf] := by
  cases symbol <;> first | rfl | cases h

/-! ## §5 Usages -/

/-- The tree has the leaves of what was read before the symbols, and then their elements. -/
theorem leaves_of_builds {done : List Node} {row : Row} {symbols : List Symbol} {result : Node}
    (h : Builds done row symbols result) :
    result.leaves = leavesOfAll done ++ leavesOfAll row.items ++
      (elements .other symbols).map Symbol.leaf := by
  induction h with
  | finish done row => simp [Node.leaves_simplify_choiceOf, leaves_row, elements]
  | group _ _ ihinner ihrest =>
    rw [ihrest, leaves_push, leaves_bracketed, ihinner, elements_group _ _ (.inl rfl)]
    simp
  | bar _ ih =>
    rw [ih, leavesOfAll_append, leaves_rowAlternatives, leaves_row, elements_of_ends (.inl rfl)]
    simp
  | marker _ _ ih => rw [ih, leaves_repeatLast, elements_of_ends (.inr (.inl rfl))]
  | flag hbare _ ih =>
    rw [ih, leaves_push, elements_flag, elements_flag_of_bare hbare]
    simp [Node.leaves, Symbol.leaf]
  | setting optional hvalue _ ih =>
    rw [ih, leaves_push, leaves_settingOf, leaves_leaf hvalue, elements_flag, elements_valueSign,
      elements_sign hvalue, elements_valueClose]
    simp [Symbol.leaf]
  | settingGroup optional _ _ ihinner ihrest =>
    rw [ihrest, leaves_push, leaves_settingOf, leaves_bracketed, ihinner, elements_flag,
      elements_valueSign, elements_group _ _ (.inr rfl), elements_valueClose]
    simp [Symbol.leaf]
  | leaf hleaf _ ih =>
    rw [ih, leaves_push, leaves_leaf (Symbol.isValue_of_isLeaf hleaf), elements_leaf hleaf]
    simp

/-- **The shape of a compiled tree.** Every node of it, values of flags included, is well shaped: a
group has two members or more, none of them nothing, and is optional if its members say so, and
names and keys are such as can be written. Nothing is a part only as the whole value of a flag. -/
theorem isWellShaped_of_compile {usage : Text} {tree : Node}
    (h : compile usage false = .ok tree) :
    ∀ node ∈ tree.nodes, node.IsWellShaped ∧
      ∀ part ∈ node.parts, part.isEmpty = true → ∃ occ key, node = .setting occ key part := by
  intro node hnode
  have hregular := (regular_of_parse (parse_of_compile h)).of_mem_nodes node hnode
  exact ⟨hregular.isWellShaped, fun part hpart => (hregular.of_mem_parts hpart).2⟩

/-- A flag whose value is nothing, a group in brackets, and a row that is empty. -/
theorem isWellShaped_of_compile_empty_value :
    ∃ tree, compile "--k=() [(a|[<b>]) c...]|".toList false = .ok tree ∧
      (∀ node ∈ tree.nodes, node.IsWellShaped ∧
        ∀ part ∈ node.parts, part.isEmpty = true → ∃ occ key, node = .setting occ key part) ∧
      Node.nothing ∈ tree.nodes := by
  have husage : compile "--k=() [(a|[<b>]) c...]|".toList false =
      .ok (.sequence ⟨true, false⟩ [.setting {} ['k'] .nothing,
        .sequence ⟨true, false⟩ [.choice ⟨true, false⟩ [.literal {} ['a'],
          .parameter ⟨true, false⟩ ['b']], .literal ⟨false, true⟩ ['c']]]) :=
    Match.eq_ok_of_toOption (by decide +kernel)
  exact ⟨_, husage, isWellShaped_of_compile husage, by decide⟩

/-- **Every element of a usage is a leaf of its tree.** The leaves are what the elements of the
usage stand for by themselves, one for each and in the same order. -/
theorem leaves_of_compile {usage : Text} {tree : Node} (h : compile usage false = .ok tree) :
    ∃ found, tokens usage = .ok found ∧
      tree.leaves = (elements .other (found.map Token.symbol)).map Symbol.leaf := by
  obtain ⟨found, hfound, hbuilds⟩ := parse_eq_ok_iff.mp (parse_of_compile h)
  exact ⟨found, hfound, by simpa using leaves_of_builds hbuilds⟩

/-- An `=` may be the sign of a value, a word behind a flag that is a value itself, or a word in a
group. -/
theorem leaves_of_compile_equals_signs :
    ∃ tree found, compile "a (|[--k[=(x|<y>)]]...) --f=--g= [=b]".toList false = .ok tree ∧
      tokens "a (|[--k[=(x|<y>)]]...) --f=--g= [=b]".toList = .ok found ∧
      tree.leaves = (elements .other (found.map Token.symbol)).map Symbol.leaf ∧
      tree.leaves = [.literal {} ['a'], .flag {} ['k'], .literal {} ['x'], .parameter {} ['y'],
        .flag {} ['f'], .flag {} ['g'], .literal {} ['='], .literal {} ['='],
        .literal {} ['b']] := by
  have husage : compile "a (|[--k[=(x|<y>)]]...) --f=--g= [=b]".toList false =
      .ok (.sequence {} [.literal {} ['a'],
        .setting ⟨true, true⟩ ['k'] (.choice ⟨true, false⟩ [.literal {} ['x'], .parameter {} ['y']]),
        .setting {} ['f'] (.flag {} ['g']), .literal {} ['='],
        .sequence ⟨true, false⟩ [.literal {} ['='], .literal {} ['b']]]) :=
    Match.eq_ok_of_toOption (by decide +kernel)
  obtain ⟨found, hfound, hleaves⟩ := leaves_of_compile husage
  exact ⟨_, found, husage, hfound, hleaves, by decide⟩

end Usage

end Synopsis
