/-
Synopsis.Proofs.Usage.Recompiling — compiling a tree that was written as a usage.

A tree whose symbols can be spelled compiles again when it is written as a usage, and to
the tree that `Node.reread` says (`parse_usage_reread`). The symbols of a node either
stand for it as a whole expression (`Means`) or add it to a row, whatever comes after
them (`Adds`); brackets make the one into the other, and groups are put together of
their members.
-/
import Synopsis.Proofs.Node.Rereading

namespace Synopsis

namespace Usage

open Node (Regular Formed)

/-! ## §1 Symbols of pieces -/

@[simp] theorem symbolsOf_nil : symbolsOf [] = [] := rfl

@[simp] theorem symbolsOf_blank (pieces : List Piece) :
    symbolsOf (.blank :: pieces) = symbolsOf pieces := rfl

@[simp] theorem symbolsOf_token (symbol : Symbol) (pieces : List Piece) :
    symbolsOf (.token symbol :: pieces) = symbol :: symbolsOf pieces := rfl

@[simp] theorem symbolsOf_append (pieces pieces' : List Piece) :
    symbolsOf (pieces ++ pieces') = symbolsOf pieces ++ symbolsOf pieces' :=
  List.filterMap_append

@[simp] theorem symbolsOf_map_token (symbols : List Symbol) :
    symbolsOf (symbols.map .token) = symbols := by
  induction symbols with
  | nil => rfl
  | cons symbol symbols ih => simp [ih]

@[simp] theorem symbolsOf_bracketPieces (bracket : Bracket) (pieces : List Piece) :
    symbolsOf (bracketPieces bracket pieces) =
      .opening bracket :: (symbolsOf pieces ++ [.closing bracket]) := by
  simp [bracketPieces]

@[simp] theorem symbolsOf_valuePieces (optional : Bool) (pieces : List Piece) :
    symbolsOf (valuePieces optional pieces) =
      valueSign optional ++ (symbolsOf pieces ++ valueClose optional) := by
  simp [valuePieces]

/-! ## §2 What symbols stand for -/

/-- The symbols are an expression that stands for the node. -/
def Means (symbols : List Symbol) (node : Node) : Prop := Builds [] {} symbols node

/-- The symbols add the node to a row, whatever comes after them, unless it would be read as the
value of a flag. -/
def Adds (symbols : List Symbol) (node : Node) : Prop :=
  ∀ done row rest result, startsValue rest = false → Builds done (row.push node) rest result →
    Builds done row (symbols ++ rest) result

/-- The symbols give a flag the node as its value. -/
def Gives (symbols : List Symbol) (node : Node) : Prop :=
  ∀ done row rest result (optional : Bool) (key : Text),
    Builds done (row.push (settingOf optional key node)) rest result →
      Builds done row
        (.flag key :: (valueSign optional ++ (symbols ++ (valueClose optional ++ rest)))) result

/-- The symbols are not read as the value of a flag before them. -/
def Apart (symbols : List Symbol) : Prop := ∀ rest, startsValue (symbols ++ rest) = false

section Elements

variable {symbols : List Symbol} {node : Node}

theorem push_of_filled {row : Row} (h : node.isEmpty = false) :
    row.push node = ⟨row.items ++ [node], true, false⟩ := by
  rw [Row.push, if_neg (by simp [h])]

theorem modify_concat (items : List Node) (change : Node → Node) :
    (items ++ [node]).modify items.length change = items ++ [change node] := by
  induction items with
  | nil => rfl
  | cons item items ih => rw [List.cons_append, List.length_cons, List.modify_succ_cons, ih]; rfl

/-- A marker behind an element repeats it. -/
theorem repeatLast_push {row : Row} (h : node.isEmpty = false) :
    (row.push node).repeatLast = row.push (node.setRepeating true) := by
  rw [push_of_filled h, push_of_filled (by simpa [Node.setRepeating] using h)]
  simp [Row.repeatLast, modify_concat]

theorem node_push (h : node.isEmpty = false) : (Row.push {} node).node = node := by
  rw [push_of_filled h]
  rfl

/-- A single candidate is its own choice. -/
theorem simplify_choiceOf_single (h : node.isEmpty = false) :
    (Node.choiceOf [node] false).simplify = node := by
  have hself : node.withOcc ⟨node.optional, node.repeating⟩ = node := node.withOcc_occ
  simpa [Node.choiceOf, h, Node.simplify] using hself

theorem Adds.means (h : Adds symbols node) (hfilled : node.isEmpty = false) :
    Means symbols node := by
  have hfinish := Builds.finish [] (Row.push {} node)
  rw [node_push hfilled, List.nil_append, simplify_choiceOf_single hfilled] at hfinish
  simpa [Means] using h _ _ _ _ rfl hfinish

theorem Means.adds_bracket (h : Means symbols node) (bracket : Bracket) :
    Adds (.opening bracket :: (symbols ++ [.closing bracket])) (bracketed bracket node) := by
  intro done row rest result _ hrest
  simpa using Builds.group h hrest

theorem Means.gives_bracket (h : Means symbols node) (bracket : Bracket) :
    Gives (.opening bracket :: (symbols ++ [.closing bracket])) (bracketed bracket node) := by
  intro done row rest result optional key hrest
  simpa using Builds.settingGroup optional h hrest

theorem Adds.mark (h : Adds symbols node) (hfilled : node.isEmpty = false) :
    Adds (symbols ++ [.marker]) (node.setRepeating true) := by
  intro done row rest result _ hrest
  rw [List.append_assoc]
  refine h _ _ _ _ rfl (.marker ?_ ?_)
  · rw [push_of_filled hfilled]
  · rwa [repeatLast_push hfilled]

theorem adds_leaf {symbol : Symbol} (h : symbol.isLeaf = true) : Adds [symbol] symbol.leaf :=
  fun _ _ _ _ _ hrest => .leaf h hrest

theorem adds_flag (key : Text) : Adds [.flag key] (.flag {} key) :=
  fun _ _ _ _ hbare hrest => .flag hbare hrest

theorem gives_leaf {symbol : Symbol} (h : symbol.isValue = true) : Gives [symbol] symbol.leaf :=
  fun _ _ _ _ optional _ hrest => .setting optional h hrest

/-- A flag with its value is added to a row. -/
theorem Gives.adds (h : Gives symbols node) (optional : Bool) (key : Text) :
    Adds (.flag key :: (valueSign optional ++ (symbols ++ valueClose optional)))
      (settingOf optional key node) := by
  intro done row rest result _ hrest
  simpa using h _ _ _ _ optional key hrest

end Elements

/-! ## §3 Marks -/

def marked (occ : Occurrence) (node : Node) : Node :=
  node.withOcc ⟨node.optional || occ.optional, node.repeating || occ.repeating⟩

section Marks

variable {pieces : List Piece} {node : Node} {occ : Occurrence} {nested grouped : Bool}

theorem marked_none : marked {} node = node := by
  have hself : node.withOcc ⟨node.optional, node.repeating⟩ = node := node.withOcc_occ
  simpa [marked] using hself

theorem marked_optional : marked ⟨true, false⟩ node = node.setOptional true := by
  simp [marked, Node.setOptional, Node.repeating]

theorem marked_repeating (h : node.isEmpty = false) (optional : Bool) :
    marked ⟨optional, true⟩ node = (marked ⟨optional, false⟩ node).setRepeating true := by
  cases node with
  | empty => cases h
  | _ => simp [marked, Node.setRepeating, Node.withOcc, Node.occ]

/-- In parentheses the symbols of a node stand for the same. -/
theorem Means.wrap (hmeans : Means (symbolsOf pieces) node) (hfilled : node.isEmpty = false)
    (condition : Bool) : Means (symbolsOf (wrapPieces condition .round pieces)) node := by
  cases condition with
  | false => exact hmeans
  | true =>
    rw [wrapPieces, if_pos rfl, symbolsOf_bracketPieces]
    exact (hmeans.adds_bracket .round).means hfilled

/-- A body with its marks adds the node with these marks, if it stands inside another node or has
marks, or if it is no group. -/
theorem adds_enclosePieces (hmeans : Means (symbolsOf pieces) node)
    (hadds : grouped = false → Adds (symbolsOf pieces) node) (hfilled : node.isEmpty = false)
    (hunit : grouped = true → occ.optional = false → needsParentheses occ nested grouped = true) :
    Adds (symbolsOf (enclosePieces occ nested grouped pieces)) (marked occ node) := by
  obtain ⟨optional, repeating⟩ := occ
  have hinner : Adds (symbolsOf (wrapPieces optional .square
      (wrapPieces (needsParentheses ⟨optional, repeating⟩ nested grouped) .round pieces)))
      (marked ⟨optional, false⟩ node) := by
    cases optional with
    | true =>
      rw [marked_optional, wrapPieces, if_pos rfl, symbolsOf_bracketPieces]
      exact (hmeans.wrap hfilled _).adds_bracket .square
    | false =>
      rw [marked_none, wrapPieces, if_neg Bool.false_ne_true]
      cases hparentheses : needsParentheses ⟨false, repeating⟩ nested grouped with
      | true =>
        rw [wrapPieces, if_pos rfl, symbolsOf_bracketPieces]
        exact hmeans.adds_bracket .round
      | false =>
        refine hadds ?_
        cases grouped with
        | false => rfl
        | true => exact absurd (hunit rfl rfl) (by simp [hparentheses])
  unfold enclosePieces
  cases repeating with
  | false => exact hinner
  | true =>
    rw [marked_repeating hfilled, markPieces, if_pos rfl, symbolsOf_append]
    exact hinner.mark (by simpa [marked] using hfilled)

/-- A body with its marks stands for the node with these marks, also on its own. -/
theorem means_enclosePieces (hmeans : Means (symbolsOf pieces) node)
    (hadds : grouped = false → Adds (symbolsOf pieces) node) (hfilled : node.isEmpty = false) :
    Means (symbolsOf (enclosePieces occ nested grouped pieces)) (marked occ node) := by
  by_cases hbare : grouped = true ∧ occ.optional = false ∧ needsParentheses occ nested grouped = false
  · -- a group without marks that stands on its own
    obtain ⟨optional, repeating⟩ := occ
    obtain ⟨rfl, rfl, hparentheses⟩ := hbare
    have hrepeating : repeating = false := by
      cases repeating with
      | false => rfl
      | true => cases hparentheses
    subst hrepeating
    rw [marked_none, enclosePieces, hparentheses]
    exact hmeans
  · refine (adds_enclosePieces hmeans hadds hfilled fun hgrouped hoptional => ?_).means
      (by simpa [marked] using hfilled)
    simpa [hgrouped, hoptional] using hbare

end Marks

/-! ## §4 Elements next to each other -/

section Apart

variable {symbols : List Symbol} {pieces : List Piece}

theorem startsValue_opening {bracket : Bracket} (h : startsValue symbols = false) :
    startsValue (.opening bracket :: symbols) = false := by
  cases bracket with
  | round => rfl
  | square =>
    unfold startsValue
    split
    · rename_i heq
      cases heq
    · rename_i heq
      cases heq
      cases h
    · rfl

theorem Apart.append (h : Apart symbols) (symbols' : List Symbol) : Apart (symbols ++ symbols') := by
  intro rest
  rw [List.append_assoc]
  exact h _

theorem Apart.bracket (h : Apart symbols) (bracket : Bracket) :
    Apart (.opening bracket :: (symbols ++ [.closing bracket])) :=
  fun rest => startsValue_opening (h.append _ rest)

theorem Apart.enclosePieces (h : Apart (symbolsOf pieces)) (occ : Occurrence)
    (nested grouped : Bool) : Apart (symbolsOf (enclosePieces occ nested grouped pieces)) := by
  have hwrap (condition : Bool) (bracket : Bracket) {pieces : List Piece}
      (h : Apart (symbolsOf pieces)) : Apart (symbolsOf (wrapPieces condition bracket pieces)) := by
    cases condition with
    | false => exact h
    | true =>
      rw [wrapPieces, if_pos rfl, symbolsOf_bracketPieces]
      exact h.bracket bracket
  have hunit := hwrap occ.optional .square (hwrap (needsParentheses occ nested grouped) .round h)
  unfold Usage.enclosePieces markPieces
  split
  · rw [symbolsOf_append]
    exact hunit.append _
  · exact hunit

theorem apart_joinPieces {separator : List Piece} {parts : List (List Piece)}
    (h : ∀ part ∈ parts, Apart (symbolsOf part)) (hne : parts ≠ []) :
    Apart (symbolsOf (joinPieces separator parts)) := by
  fun_induction joinPieces separator parts with
  | case1 => exact absurd rfl hne
  | case2 part => exact h part (by simp)
  | case3 part next parts _ =>
    rw [symbolsOf_append]
    exact (h part (by simp)).append _

theorem apart_of_mem_memberPieces {nodes : List Node}
    (h : ∀ node ∈ nodes, Apart (symbolsOf node.bodyPieces)) :
    ∀ part ∈ Node.memberPieces nodes, Apart (symbolsOf part) := by
  intro part hpart
  rw [Node.memberPieces_eq_map] at hpart
  obtain ⟨node, hnode, rfl⟩ := List.mem_map.mp hpart
  exact (h node hnode).enclosePieces _ _ _

/-- What is written for a tree is not read as the value of a flag before it. -/
theorem apart_bodyPieces {node : Node} (h : node.Formed) : Apart (symbolsOf node.bodyPieces) := by
  induction h with
  | sequence hlength _ _ ih =>
    exact apart_joinPieces (apart_of_mem_memberPieces ih) (Node.memberPieces_ne_nil hlength)
  | choice hlength _ _ ih =>
    exact apart_joinPieces (apart_of_mem_memberPieces ih) (Node.memberPieces_ne_nil hlength)
  | _ => exact fun _ => rfl

end Apart

section Groups

variable {nodes : List Node}

theorem items_foldl_push {row : Row} (h : ∀ node ∈ nodes, node.isEmpty = false) :
    (nodes.foldl Row.push row).items = row.items ++ nodes := by
  induction nodes generalizing row with
  | nil => simp
  | cons node nodes ih =>
    rw [List.foldl_cons, ih fun other hother => h other (by simp [hother]),
      push_of_filled (h node (by simp)), List.append_assoc]
    rfl

/-- Members with blanks between them are added to a row one after the other. -/
theorem adds_members (hformed : ∀ node ∈ nodes, node.Formed)
    (hadds : ∀ node ∈ nodes, Adds (symbolsOf (node.pieces true)) node.reread)
    {done : List Node} {row : Row} {result : Node}
    (h : Builds done ((Node.rereadAll nodes).foldl Row.push row) [] result) :
    Builds done row (symbolsOf (joinPieces [.blank] (Node.memberPieces nodes))) result := by
  induction nodes generalizing row with
  | nil => exact h
  | cons node nodes ih =>
    have ih := @ih (fun other hother => hformed other (by simp [hother]))
      fun other hother => hadds other (by simp [hother])
    have hnode := hadds node (by simp)
    cases nodes with
    | nil =>
      have hbuilds := hnode done row [] result rfl h
      rwa [List.append_nil] at hbuilds
    | cons next nodes =>
      have hbuilds := hnode done row _ result ?_ (ih h)
      · simpa [Node.memberPieces, joinPieces, Node.pieces] using hbuilds
      · have hapart : Apart (symbolsOf (joinPieces [.blank] (Node.memberPieces (next :: nodes)))) :=
          apart_joinPieces (apart_of_mem_memberPieces fun other hother =>
            apart_bodyPieces (hformed other (by simp [hother]))) (List.cons_ne_nil _ _)
        simpa using hapart []

/-- Alternatives with bars between them are added to those before them, all but the last one as
their rows do. -/
theorem adds_alternatives (hfilled : ∀ node ∈ nodes, node.isEmpty = false)
    (hadds : ∀ node ∈ nodes, Adds (symbolsOf (node.pieces true)) node.reread) (hne : nodes ≠ [])
    (done : List Node) :
    Builds done {} (symbolsOf (joinPieces [.blank, .token .bar, .blank] (Node.memberPieces nodes)))
      (Node.choiceOf (done ++ Node.spread (Node.rereadAll nodes)) false).simplify := by
  induction nodes generalizing done with
  | nil => exact absurd rfl hne
  | cons node nodes ih =>
    have hnode := hadds node (by simp)
    have hrow : (Row.push {} node.reread).node = node.reread :=
      node_push (by simp [hfilled node (by simp)])
    cases nodes with
    | nil =>
      have hbuilds := hnode done {} [] _ rfl (.finish done _)
      rw [hrow, List.append_nil] at hbuilds
      exact hbuilds
    | cons next nodes =>
      have ih := ih (fun other hother => hfilled other (by simp [hother]))
        (fun other hother => hadds other (by simp [hother])) (by simp)
        (done ++ rowAlternatives node.reread)
      rw [← hrow] at ih
      have hbuilds := hnode done {} _ _ rfl (.bar ih)
      rw [hrow] at hbuilds
      simpa [Node.memberPieces, joinPieces, Node.pieces, Node.rereadAll, Node.spread]
        using hbuilds

end Groups

/-! ## §5 Trees -/

/-- The body of the node stands for the given node, which is what is read back of the node but for
its marks. -/
structure BodyMeans (node bare : Node) : Prop where
  means : Means (symbolsOf node.bodyPieces) bare
  adds : node.isGrouped = false → Adds (symbolsOf node.bodyPieces) bare
  gives : node.isPlainValue = true → node.isGrouped = false → Gives (symbolsOf node.bodyPieces) bare
  isEmpty_eq : bare.isEmpty = node.isEmpty
  repeating_eq : node.isPlainValue = true → bare.repeating = false
  marked_eq : marked node.occ bare = node.reread

section Trees

variable {node bare : Node}

theorem BodyMeans.adds_pieces (h : BodyMeans node bare) (hformed : node.Formed)
    (hfilled : node.isEmpty = false) : Adds (symbolsOf (node.pieces true)) node.reread := by
  rw [← h.marked_eq, Node.pieces, Node.shownOcc_eq hformed]
  refine adds_enclosePieces h.means h.adds (h.isEmpty_eq.trans hfilled) fun hgrouped hoptional => ?_
  simp [needsParentheses, hgrouped, hoptional]

theorem BodyMeans.leaf {symbol : Symbol} (hpieces : node.bodyPieces = [.token symbol])
    (hvalue : symbol.isValue = true) (hadds : Adds [symbol] symbol.leaf)
    (hfilled : symbol.leaf.isEmpty = false) (hisEmpty : node.isEmpty = false)
    (hrepeating : symbol.leaf.repeating = false)
    (hmarked : marked node.occ symbol.leaf = node.reread) : BodyMeans node symbol.leaf := by
  have hsymbols : symbolsOf node.bodyPieces = [symbol] := by rw [hpieces]; rfl
  refine ⟨?_, fun _ => ?_, fun _ _ => ?_, hfilled.trans hisEmpty.symm, fun _ => hrepeating, hmarked⟩
  · rw [hsymbols]
    exact hadds.means hfilled
  · rwa [hsymbols]
  · rw [hsymbols]
    exact gives_leaf hvalue

theorem bodyMeans_nothing : BodyMeans .nothing .nothing := by
  have hinside : Means [] .nothing := Builds.finish [] {}
  have hadds : Adds (symbolsOf (Node.bodyPieces .nothing)) .nothing := hinside.adds_bracket .round
  refine ⟨?_, fun _ => hadds, fun _ _ => hinside.gives_bracket .round, rfl, fun _ => rfl, rfl⟩
  have hbuilds := hadds [] {} [] _ rfl (.finish [] _)
  rwa [List.append_nil] at hbuilds

/-- A group stands for what its members make, before it gets its own marks. -/
theorem BodyMeans.group (hmeans : Means (symbolsOf node.bodyPieces) bare)
    (hgrouped : node.isGrouped = true) (hisEmpty : bare.isEmpty = node.isEmpty)
    (hrepeating : bare.repeating = false) (hmarked : marked node.occ bare = node.reread) :
    BodyMeans node bare := by
  have hgroup : ¬ node.isGrouped = false := by simp [hgrouped]
  exact ⟨hmeans, fun h => absurd h hgroup, fun _ h => absurd h hgroup, hisEmpty,
    fun _ => hrepeating, hmarked⟩

/-- A value that is marked and then does not repeat has only been made optional. -/
theorem setRepeating_marked (occ : Occurrence) (h : bare.repeating = false) :
    (marked occ bare).setRepeating false =
      if occ.optional then bare.setOptional true else bare := by
  cases bare with
  | empty => cases occ.optional <;> rfl
  | _ own =>
    obtain ⟨optional, repeating⟩ := own
    cases h
    cases hoptional : occ.optional <;>
      simp [marked, Node.setRepeating, Node.setOptional, Node.withOcc, Node.occ, Node.optional,
        hoptional]

/-- A flag's value is written between its sign and what closes it, and a marker behind it is the
last symbol, for a value that repeats is not closed. -/
theorem symbolsOf_setting {occ : Occurrence} {key : Text} {value : Node} (hformed : value.Formed)
    (hplain : value.isPlainValue = true) :
    symbolsOf (Node.bodyPieces (.setting occ key value)) =
      (.flag key :: (valueSign value.optional ++
        (symbolsOf (wrapPieces value.isGrouped .round value.bodyPieces) ++
          valueClose value.optional))) ++ if value.repeating then [.marker] else [] := by
  have hparentheses : needsParentheses { value.occ with optional := false } true value.isGrouped =
      value.isGrouped := by simp [needsParentheses]
  have hocc : value.occ.repeating = value.repeating := rfl
  rw [Node.bodyPieces, Node.shownOcc_eq hformed, symbolsOf_token, symbolsOf_valuePieces,
    enclosePieces, hparentheses, hocc]
  cases hrepeating : value.repeating with
  | false => exact (List.append_nil _).symm
  | true =>
    rw [Node.optional_of_isPlainValue hplain hrepeating]
    simp [markPieces, wrapPieces, valueSign, valueClose]

/-- A flag with a value. The value stands in its own brackets or is a single symbol, and a marker
behind it repeats the flag. -/
theorem BodyMeans.setting {occ : Occurrence} {key : Text} {value bare : Node}
    (h : BodyMeans value bare) (hformed : value.Formed) (hplain : value.isPlainValue = true) :
    BodyMeans (.setting occ key value)
      (.setting ⟨false, value.repeating⟩ key (value.reread.setRepeating false)) := by
  have hgives : Gives (symbolsOf (wrapPieces value.isGrouped .round value.bodyPieces)) bare := by
    cases hgrouped : value.isGrouped with
    | false => exact h.gives hplain hgrouped
    | true =>
      rw [wrapPieces, if_pos rfl, symbolsOf_bracketPieces]
      exact h.means.gives_bracket .round
  have hvalue : settingOf value.optional key bare =
      .setting {} key (value.reread.setRepeating false) := by
    rw [← h.marked_eq, setRepeating_marked _ (h.repeating_eq hplain)]
    rfl
  have hadds : Adds (symbolsOf (Node.bodyPieces (.setting occ key value)))
      (.setting ⟨false, value.repeating⟩ key (value.reread.setRepeating false)) := by
    have hflag := hgives.adds value.optional key
    rw [hvalue] at hflag
    rw [symbolsOf_setting hformed hplain]
    cases value.repeating with
    | false => rwa [if_neg Bool.false_ne_true, List.append_nil]
    | true => exact hflag.mark rfl
  have hnot : (Node.setting occ key value).isPlainValue ≠ true := Bool.false_ne_true
  have hmarked : marked occ (.setting ⟨false, value.repeating⟩ key
      (value.reread.setRepeating false)) = Node.reread (.setting occ key value) := by
    simp [marked, Node.reread, Node.withOcc, Node.occ, Node.optional, Node.repeating,
      Bool.or_comm]
  exact ⟨hadds.means rfl, fun _ => hadds, fun h => absurd h hnot, rfl, fun h => absurd h hnot,
    hmarked⟩

theorem node_of_two {row : Row} (h : 2 ≤ row.items.length) :
    row.node = Node.sequenceOf row.items false := by
  unfold Row.node
  split
  · rename_i hitems
    simp [hitems] at h
  · rename_i hitems
    simp [hitems] at h
  · rfl

/-- A sequence is what its members make, one after the other. -/
theorem BodyMeans.sequence {occ : Occurrence} {children : List Node}
    (hformed : (Node.sequence occ children).Formed)
    (hadds : ∀ child ∈ children, Adds (symbolsOf (child.pieces true)) child.reread) :
    BodyMeans (.sequence occ children) (Node.sequenceOf (Node.rereadAll children) false) := by
  cases hformed with
  | sequence hlength hchildren hfilled =>
    have hmembers : ∀ node ∈ Node.rereadAll children, node.isEmpty = false :=
      Node.forall_mem_rereadAll_iff.mpr fun child hchild => by simp [hfilled child hchild]
    have hrow : ((Node.rereadAll children).foldl Row.push {}).node =
        Node.sequenceOf (Node.rereadAll children) false := by
      have hitems : ((Node.rereadAll children).foldl Row.push {}).items =
          Node.rereadAll children := items_foldl_push hmembers
      rw [node_of_two (by rwa [hitems, Node.length_rereadAll]), hitems]
    have hfinish := Builds.finish [] ((Node.rereadAll children).foldl Row.push {})
    rw [hrow, List.nil_append, simplify_choiceOf_single rfl] at hfinish
    exact .group (adds_members hchildren hadds hfinish) (decide_eq_true hlength) rfl rfl rfl

/-- A choice between several alternatives has nothing to simplify. -/
theorem simplify_choice {occ : Occurrence} {alternatives : List Node}
    (h : 2 ≤ alternatives.length) :
    (Node.choice occ alternatives).simplify = .choice occ alternatives := by
  match alternatives with
  | [] => cases h
  | [_] => simp at h
  | _ :: _ :: _ => rfl

/-- A choice is what its members make, with bars between them. -/
theorem BodyMeans.choice {occ : Occurrence} {alternatives : List Node}
    (hformed : (Node.choice occ alternatives).Formed)
    (hadds : ∀ alternative ∈ alternatives,
      Adds (symbolsOf (alternative.pieces true)) alternative.reread) :
    BodyMeans (.choice occ alternatives)
      (Node.choiceOf (Node.spread (Node.rereadAll alternatives)) false) := by
  have hreread := hformed.reread
  cases hformed with
  | choice hlength _ hfilled =>
    have hmeans := adds_alternatives hfilled hadds (by rintro rfl; cases hlength) []
    cases hreread with
    | choice hlength' =>
      rw [List.nil_append, Node.choiceOf, simplify_choice hlength'] at hmeans
      exact .group hmeans (decide_eq_true hlength) rfl rfl rfl

/-- The body of every tree that can be spelled stands for what is read back of it. -/
theorem exists_bodyMeans (hformed : node.Formed) (hspelled : node.isSpelled = true) :
    ∃ bare, BodyMeans node bare := by
  induction hformed with
  | literal =>
    exact ⟨_, .leaf rfl rfl (adds_leaf rfl) rfl rfl rfl rfl⟩
  | parameter =>
    exact ⟨_, .leaf rfl rfl (adds_leaf rfl) rfl rfl rfl rfl⟩
  | flag =>
    exact ⟨_, .leaf rfl rfl (adds_flag _) rfl rfl rfl rfl⟩
  | setting _ hvalue ih =>
    simp only [Node.isSpelled, Bool.and_eq_true] at hspelled
    obtain ⟨bare, hbare⟩ := ih hspelled.1.2
    exact ⟨_, hbare.setting hvalue hspelled.1.1.2⟩
  | @sequence occ children hlength hchildren hfilled ih =>
    refine ⟨_, .sequence (.sequence hlength hchildren hfilled) fun child h => ?_⟩
    obtain ⟨bare, hbare⟩ := ih child h (Node.areSpelled_iff.mp hspelled child h)
    exact hbare.adds_pieces (hchildren child h) (hfilled child h)
  | @choice occ alternatives hlength halternatives hfilled ih =>
    refine ⟨_, .choice (.choice hlength halternatives hfilled) fun node h => ?_⟩
    obtain ⟨bare, hbare⟩ := ih node h (Node.areSpelled_iff.mp hspelled node h)
    exact hbare.adds_pieces (halternatives node h) (hfilled node h)
  | nothing => exact ⟨_, bodyMeans_nothing⟩

/-- A tree that can be spelled and is written as a usage compiles to what is read back of it. -/
theorem parse_usage_reread (hformed : node.Formed) (hspelled : node.isSpelled = true) :
    parse node.usage = .ok node.reread := by
  obtain ⟨found, hfound, hsymbols⟩ := Node.tokens_usage hformed hspelled
  obtain ⟨bare, hbare⟩ := exists_bodyMeans hformed hspelled
  refine parse_eq_ok_iff.mpr ⟨found, hfound, ?_⟩
  rw [hsymbols, Node.pieces, Node.shownOcc_eq hformed, ← hbare.marked_eq]
  cases hformed with
  | nothing =>
    rw [hbare.marked_eq]
    exact bodyMeans_nothing.means
  | _ => exact means_enclosePieces hbare.means hbare.adds (hbare.isEmpty_eq.trans rfl)

end Trees

end Usage

end Synopsis
