/-
Synopsis.Proofs.Node.Rendering — the pieces a tree is written in.

A tree is written piece by piece (`textOf_pieces`), and the pieces of a tree that can be
spelled can be read back one by one (`bodyWritten_of_isSpelled`): each is spellable, and
none runs into the next one. What cannot be spelled is a key that would need escapes,
which keys are written without, a repetition marker behind a blank or a dot, and a
flag's value that is read back as something else (`Node.isSpelled`).
-/
import Synopsis.Node.Render
import Synopsis.Proofs.Node.Induction
import Synopsis.Proofs.Usage.Spelling

namespace Synopsis

open Usage (Piece Symbol textOf symbolsOf valueSign valueClose)

/-! ## §1 Trees that can be spelled -/

namespace Node

/-- A repetition marker may stand right behind the text of the node, which ends neither in a blank
nor with a key that ends in a dot. A group and a value that may be left out end in a bracket. -/
def takesMarker : Node → Bool
  | .literal _ name => (Symbol.word name).takesMarker
  | .flag _ key => (Symbol.flag key).takesMarker
  | .setting _ _ value => value.optional || value.repeating || value.takesMarker
  | _ => true

def markerFits (node : Node) : Bool := node.optional || !node.repeating || node.takesMarker

/-- A flag's value that is read back as one: not another flag with a value, whose value would be
taken for what comes next, and not both optional and repeating, since no marker may stand before
the bracket that closes it. -/
def isPlainValue : Node → Bool
  | .setting _ _ _ => false
  | value => !(value.optional && value.repeating)

mutual

/-- Every symbol of the tree can be read back from what is written for it. -/
def isSpelled : Node → Bool
  | .literal occ name => markerFits (.literal occ name)
  | .parameter _ _ | .empty _ => true
  | .flag occ key => Usage.isPlainKey key && markerFits (.flag occ key)
  | .setting occ key value =>
    Usage.isPlainKey key && value.isPlainValue && value.isSpelled &&
      markerFits (.setting occ key value)
  | .sequence _ children => areSpelled children
  | .choice _ alternatives => areSpelled alternatives
  | .hole _ => false

def areSpelled : List Node → Bool
  | [] => true
  | node :: nodes => node.isSpelled && areSpelled nodes

end

theorem areSpelled_iff {nodes : List Node} :
    areSpelled nodes = true ↔ ∀ node ∈ nodes, node.isSpelled = true := by
  induction nodes with
  | nil => simp [areSpelled]
  | cons node nodes ih => simp [areSpelled, ih]

/-- The tree has names that can be written, and its groups have several members, none of which is
nothing. Its marks may be any. -/
inductive Formed : Node → Prop where
  | literal {occ : Occurrence} {name : Text} (hname : name ≠ []) : Formed (.literal occ name)
  | parameter {occ : Occurrence} {name : Text} (hname : '>' ∉ name) : Formed (.parameter occ name)
  | flag {occ : Occurrence} {key : Text} (hkey : key ≠ []) : Formed (.flag occ key)
  | setting {occ : Occurrence} {key : Text} {value : Node} (hkey : key ≠ [])
    (hvalue : Formed value) : Formed (.setting occ key value)
  | sequence {occ : Occurrence} {children : List Node} (hlength : 2 ≤ children.length)
    (hchildren : ∀ child ∈ children, Formed child)
    (hfilled : ∀ child ∈ children, child.isEmpty = false) : Formed (.sequence occ children)
  | choice {occ : Occurrence} {alternatives : List Node} (hlength : 2 ≤ alternatives.length)
    (halternatives : ∀ alternative ∈ alternatives, Formed alternative)
    (hfilled : ∀ alternative ∈ alternatives, alternative.isEmpty = false) :
    Formed (.choice occ alternatives)
  | nothing : Formed .nothing

theorem Regular.formed {node : Node} (h : node.Regular) : node.Formed := by
  induction h with
  | literal hname => exact .literal hname
  | parameter hname => exact .parameter hname
  | flag hkey => exact .flag hkey
  | setting hkey _ ih => exact .setting hkey ih
  | sequence hlength _ hfilled _ ih => exact .sequence hlength ih hfilled
  | choice hlength _ hfilled _ ih => exact .choice hlength ih hfilled
  | nothing => exact .nothing

end Node

/-! ## §2 Pieces -/

namespace Usage

def bracketPieces (bracket : Bracket) (pieces : List Piece) : List Piece :=
  .token (.opening bracket) :: (pieces ++ [.token (.closing bracket)])

def wrapPieces (condition : Bool) (bracket : Bracket) (pieces : List Piece) : List Piece :=
  if condition then bracketPieces bracket pieces else pieces

def markPieces (condition : Bool) (pieces : List Piece) : List Piece :=
  if condition then pieces ++ [.token .marker] else pieces

/-- Several members are held together by parentheses if square brackets do not do it. -/
def needsParentheses (occ : Occurrence) (nested grouped : Bool) : Bool :=
  grouped && (occ.repeating || (nested && !occ.optional))

def enclosePieces (occ : Occurrence) (nested grouped : Bool) (pieces : List Piece) : List Piece :=
  markPieces occ.repeating <| wrapPieces occ.optional .square <|
    wrapPieces (needsParentheses occ nested grouped) .round pieces

def joinPieces (separator : List Piece) : List (List Piece) → List Piece
  | [] => []
  | [part] => part
  | part :: next :: parts => part ++ (separator ++ joinPieces separator (next :: parts))

def valuePieces (optional : Bool) (pieces : List Piece) : List Piece :=
  (valueSign optional).map .token ++ (pieces ++ (valueClose optional).map .token)

end Usage

namespace Node

open Usage (bracketPieces wrapPieces markPieces needsParentheses enclosePieces joinPieces valuePieces)

mutual

/-- The pieces of a node without its marks. -/
def bodyPieces : Node → List Piece
  | .literal _ name => [.token (.word name)]
  | .parameter _ name => [.token (.parameter name)]
  | .flag _ key => [.token (.flag key)]
  | .setting _ key value =>
    .token (.flag key) :: valuePieces value.optional
      (enclosePieces { value.shownOcc with optional := false } true value.isGrouped
        value.bodyPieces)
  | .sequence _ children => joinPieces [.blank] (memberPieces children)
  | .choice _ alternatives =>
    joinPieces [.blank, .token .bar, .blank] (memberPieces alternatives)
  | .empty _ => bracketPieces .round []
  | .hole _ => []

def memberPieces : List Node → List (List Piece)
  | [] => []
  | node :: nodes =>
    enclosePieces node.shownOcc true node.isGrouped node.bodyPieces :: memberPieces nodes

end

/-- The pieces of a node as it is written, inside another node or on its own. -/
def pieces (nested : Bool) (node : Node) : List Piece :=
  enclosePieces node.shownOcc nested node.isGrouped node.bodyPieces

theorem memberPieces_eq_map (nodes : List Node) : memberPieces nodes = nodes.map (pieces true) := by
  induction nodes with
  | nil => rfl
  | cons node nodes ih => rw [memberPieces, ih]; rfl

end Node

namespace Usage

theorem textOf_append (pieces pieces' : List Piece) :
    textOf (pieces ++ pieces') = textOf pieces ++ textOf pieces' := List.flatMap_append

theorem textOf_bracketPieces (bracket : Bracket) (pieces : List Piece) :
    textOf (bracketPieces bracket pieces) =
      (Symbol.opening bracket).spelling ++ textOf pieces ++ (Symbol.closing bracket).spelling := by
  simp [bracketPieces, textOf, Piece.text]

theorem textOf_enclosePieces (occ : Occurrence) (nested grouped : Bool) (pieces : List Piece) :
    textOf (enclosePieces occ nested grouped pieces) =
      Node.enclose occ nested grouped (textOf pieces) := by
  obtain ⟨optional, repeating⟩ := occ
  have hmarker : textOf [.token .marker] = repeatMarker := rfl
  unfold enclosePieces markPieces wrapPieces needsParentheses Node.enclose
  cases optional <;> cases repeating <;> cases nested <;> cases grouped <;>
    simp [textOf_bracketPieces, textOf_append, hmarker, Symbol.spelling]

theorem textOf_joinPieces (separator : List Piece) (parts : List (List Piece)) :
    textOf (joinPieces separator parts) =
      Text.joinWith (textOf separator) (parts.map textOf) := by
  fun_induction joinPieces separator parts with
  | case1 => rfl
  | case2 part => rfl
  | case3 part next parts ih =>
    rw [textOf_append, textOf_append, ih]
    simp [Text.joinWith]

theorem textOf_valuePieces (optional : Bool) (pieces : List Piece) :
    textOf (valuePieces optional pieces) =
      if optional then "[=".toList ++ textOf pieces ++ [']'] else '=' :: textOf pieces := by
  unfold valuePieces
  rw [textOf_append, textOf_append]
  cases optional with
  | false => exact congrArg _ (List.append_nil _)
  | true => exact (List.append_assoc ..).symm

end Usage

namespace Node

open Usage (textOf_append textOf_enclosePieces textOf_joinPieces textOf_valuePieces)

/-- The marks that are shown of a node say no more than its own. -/
theorem optional_shownOcc {node : Node} (h : node.optional = false) :
    node.shownOcc.optional = false := by
  cases node <;> first | exact h | rfl

mutual

/-- The pieces of a body are its text. -/
theorem textOf_bodyPieces : ∀ node : Node, textOf node.bodyPieces = node.body
  | .literal _ name => List.append_nil _
  | .parameter _ name => List.append_nil _
  | .flag _ key => List.append_nil _
  | .setting _ key value => by
    have hshown : value.optional = false →
        { value.shownOcc with optional := false } = value.shownOcc := fun h => by
      rw [← optional_shownOcc h]
    rw [bodyPieces, Usage.textOf_cons, textOf_valuePieces, textOf_enclosePieces,
      textOf_bodyPieces value, body]
    cases hoptional : value.optional with
    | false => rw [hshown hoptional]; rfl
    | true => rfl
  | .sequence _ children => by
    rw [bodyPieces, textOf_joinPieces, textOf_memberPieces children]
    rfl
  | .choice _ alternatives => by
    rw [bodyPieces, textOf_joinPieces, textOf_memberPieces alternatives]
    rfl
  | .empty _ => rfl
  | .hole _ => rfl

/-- The pieces of members are their texts. -/
theorem textOf_memberPieces : ∀ nodes : List Node, (memberPieces nodes).map textOf = members nodes
  | [] => rfl
  | node :: nodes => by
    rw [memberPieces, List.map_cons, textOf_enclosePieces, textOf_bodyPieces node,
      textOf_memberPieces nodes, members]

end

/-- A tree is written in its pieces. -/
theorem textOf_pieces (nested : Bool) (node : Node) :
    textOf (node.pieces nested) = node.render nested := by
  rw [pieces, textOf_enclosePieces, textOf_bodyPieces, render]

end Node

/-! ## §3 Pieces that stay apart -/

namespace Usage

def Symbol.begins : Symbol → Bool
  | .opening _ | .flag _ | .parameter _ | .word _ => true
  | _ => false

/-- Pieces that are read back one by one, and that begin an element. -/
structure Written (pieces : List Piece) : Prop where
  spellable : ∀ piece ∈ pieces, piece.Spellable
  chain : pieces.IsChain Piece.Adjoins
  begins : ∃ symbol rest, pieces = .token symbol :: rest ∧ symbol.begins = true

/-- Pieces that are read back one by one, and that stay apart from anything before them. -/
structure Detached (pieces : List Piece) : Prop where
  spellable : ∀ piece ∈ pieces, piece.Spellable
  chain : pieces.IsChain Piece.Adjoins
  begins : ∀ piece ∈ pieces.head?, piece.isPlain = false ∧ piece ≠ .token .marker

def EndsMarkable (pieces : List Piece) : Prop :=
  ∀ piece ∈ pieces.getLast?, piece.takesMarker = true

section Written

variable {pieces : List Piece}

theorem Written.single {symbol : Symbol} (hspell : symbol.Spellable)
    (hbegins : symbol.begins = true) : Written [.token symbol] :=
  ⟨fun piece hpiece => by rw [List.mem_singleton.mp hpiece]; exact hspell, .singleton _, symbol, [],
    rfl, hbegins⟩

theorem endsMarkable_single {symbol : Symbol} (h : symbol.takesMarker = true) :
    EndsMarkable [.token symbol] := by
  rintro last hlast
  cases hlast
  exact h

/-- Anything stays apart from a piece that is neither a plain word nor a marker. -/
theorem adjoins_of_not_isPlain {piece next : Piece} (hplain : next.isPlain = false)
    (hmarker : next ≠ .token .marker) : piece.Adjoins next :=
  ⟨fun _ => hplain, fun h => absurd h hmarker⟩

/-- What is no plain word stays apart from the beginning of an element. -/
theorem Written.adjoins (h : Written pieces) {piece : Piece} (hplain : piece.isPlain = false) :
    ∀ next ∈ pieces.head?, piece.Adjoins next := by
  obtain ⟨symbol, rest, rfl, hbegins⟩ := h.begins
  intro next hnext
  obtain rfl : .token symbol = next := Option.some.inj hnext
  refine ⟨fun hpiece => ?_, fun hmarker => ?_⟩
  · rw [hplain] at hpiece
    cases hpiece
  · cases hmarker
    cases hbegins

theorem endsMarkable_concat {piece : Piece} (h : piece.takesMarker = true) :
    EndsMarkable (pieces ++ [piece]) := by
  intro last hlast
  rw [List.getLast?_concat] at hlast
  cases hlast
  exact h

theorem EndsMarkable.append {front : List Piece} (h : EndsMarkable pieces) (hne : pieces ≠ []) :
    EndsMarkable (front ++ pieces) := by
  unfold EndsMarkable
  rw [List.getLast?_append_of_ne_nil front hne]
  exact h

theorem endsMarkable_bracketPieces (bracket : Bracket) :
    EndsMarkable (bracketPieces bracket pieces) := by
  rw [bracketPieces, ← List.cons_append]
  exact endsMarkable_concat rfl

theorem Detached.nil : Detached [] := ⟨by simp, .nil, by simp⟩

theorem Detached.cons (h : Detached pieces) {piece : Piece} (hspell : piece.Spellable)
    (hplain : piece.isPlain = false) (hmarker : piece ≠ .token .marker) :
    Detached (piece :: pieces) := by
  refine ⟨by simpa using ⟨hspell, h.spellable⟩, h.chain.cons fun next hnext => ?_, ?_⟩
  · exact adjoins_of_not_isPlain (h.begins next hnext).1 (h.begins next hnext).2
  · rintro next hnext
    cases hnext
    exact ⟨hplain, hmarker⟩

theorem Written.detached (h : Written pieces) {piece : Piece} (hspell : piece.Spellable)
    (hplain : piece.isPlain = false) (hmarker : piece ≠ .token .marker) :
    Detached (piece :: pieces) := by
  refine ⟨by simpa using ⟨hspell, h.spellable⟩, h.chain.cons (h.adjoins hplain), ?_⟩
  rintro next hnext
  cases hnext
  exact ⟨hplain, hmarker⟩

/-- What is detached may follow anything that is written. -/
theorem Written.append (h : Written pieces) {rest : List Piece} (hrest : Detached rest) :
    Written (pieces ++ rest) := by
  obtain ⟨symbol, tail, rfl, hbegins⟩ := h.begins
  refine ⟨fun piece hpiece => ?_, h.chain.append hrest.chain fun last _ next hnext => ?_,
    symbol, tail ++ rest, rfl, hbegins⟩
  · rcases List.mem_append.mp hpiece with hmem | hmem
    · exact h.spellable piece hmem
    · exact hrest.spellable piece hmem
  · exact adjoins_of_not_isPlain (hrest.begins next hnext).1 (hrest.begins next hnext).2

theorem Written.mark (h : Written pieces) (hends : EndsMarkable pieces) :
    Written (pieces ++ [.token .marker]) := by
  obtain ⟨symbol, tail, rfl, hbegins⟩ := h.begins
  refine ⟨fun piece hpiece => ?_, h.chain.append (.singleton _) fun last hlast next hnext => ?_,
    symbol, _, rfl, hbegins⟩
  · rcases List.mem_append.mp hpiece with hmem | hmem
    · exact h.spellable piece hmem
    · rw [List.mem_singleton.mp hmem]
      trivial
  · cases hnext
    exact ⟨fun _ => rfl, fun _ => hends last hlast⟩

theorem Written.bracket (h : Written pieces) (bracket : Bracket) :
    Written (bracketPieces bracket pieces) := by
  have hclosed : Written (pieces ++ [.token (.closing bracket)]) :=
    h.append (Detached.nil.cons trivial rfl nofun)
  have hopened : Detached (bracketPieces bracket pieces) := hclosed.detached trivial rfl nofun
  exact ⟨hopened.spellable, hopened.chain, _, _, rfl, rfl⟩

/-- A body with its marks is written, if a marker that stands right behind the body may. -/
theorem Written.enclose (h : Written pieces) {occ : Occurrence} {nested grouped : Bool}
    (hends : occ.repeating = true → occ.optional = false → grouped = false → EndsMarkable pieces) :
    Written (enclosePieces occ nested grouped pieces) := by
  have hwrap (condition : Bool) (bracket : Bracket) {pieces : List Piece} (h : Written pieces) :
      Written (wrapPieces condition bracket pieces) := by
    unfold wrapPieces
    split
    · exact h.bracket bracket
    · exact h
  have hunit := hwrap occ.optional .square (hwrap (needsParentheses occ nested grouped) .round h)
  unfold enclosePieces markPieces
  split
  · rename_i hrepeating
    refine hunit.mark ?_
    unfold wrapPieces
    split
    · exact endsMarkable_bracketPieces _
    · rename_i hoptional
      split
      · exact endsMarkable_bracketPieces _
      · rename_i hparentheses
        exact hends hrepeating (by simpa using hoptional)
          (by simpa [needsParentheses, hrepeating] using hparentheses)
  · exact hunit

/-- A marker may stand behind a body with its marks, if it may stand behind the body where nothing
else comes last. -/
theorem endsMarkable_enclosePieces {occ : Occurrence} {nested grouped : Bool}
    (hends : occ.repeating = false → occ.optional = false →
      needsParentheses occ nested grouped = false → EndsMarkable pieces) :
    EndsMarkable (enclosePieces occ nested grouped pieces) := by
  unfold enclosePieces markPieces wrapPieces
  split
  · exact endsMarkable_concat rfl
  · rename_i hrepeating
    split
    · exact endsMarkable_bracketPieces _
    · rename_i hoptional
      split
      · exact endsMarkable_bracketPieces _
      · rename_i hparentheses
        exact hends (by simpa using hrepeating) (by simpa using hoptional)
          (by simpa using hparentheses)

theorem Written.afterBlank (h : Written pieces) : Detached ([.blank] ++ pieces) :=
  h.detached trivial rfl nofun

theorem Written.afterBar (h : Written pieces) :
    Detached ([.blank, .token .bar, .blank] ++ pieces) := by
  have hbar : Detached (.token .bar :: .blank :: pieces) := h.afterBlank.cons trivial rfl nofun
  exact hbar.cons trivial rfl nofun

/-- Parts are written one after the other, if the separator is detached with what comes after it. -/
theorem Written.join {separator : List Piece}
    (hseparator : ∀ {rest}, Written rest → Detached (separator ++ rest))
    {parts : List (List Piece)} (hparts : ∀ part ∈ parts, Written part) (hne : parts ≠ []) :
    Written (joinPieces separator parts) := by
  fun_induction joinPieces separator parts with
  | case1 => exact absurd rfl hne
  | case2 part => exact hparts part (by simp)
  | case3 part next parts ih =>
    have ih := ih (fun other hother => hparts other (by simp [hother])) (by simp)
    exact (hparts part (by simp)).append (hseparator ih)

theorem Written.ne_nil (h : Written pieces) : pieces ≠ [] := by
  obtain ⟨symbol, rest, rfl, -⟩ := h.begins
  simp

/-- A marker may stand behind a value that is closed by a bracket, or whose own end takes one. -/
theorem Written.endsMarkable_value (h : Written pieces) {optional : Bool} (key : Text)
    (hends : optional = false → EndsMarkable pieces) :
    EndsMarkable (.token (.flag key) :: valuePieces optional pieces) := by
  cases optional with
  | false =>
    have hvalue : valuePieces false pieces = [.token .equals] ++ pieces := by
      simp [valuePieces, valueSign, valueClose]
    rw [hvalue, ← List.cons_append]
    exact (hends rfl).append h.ne_nil
  | true =>
    rw [valuePieces, ← List.append_assoc, ← List.cons_append]
    exact endsMarkable_concat rfl

/-- A flag with a value is written, if the value is. -/
theorem Written.value (h : Written pieces) (optional : Bool) {key : Text} (hne : key ≠ [])
    (hkey : isPlainKey key = true) :
    Written (.token (.flag key) :: valuePieces optional pieces) := by
  have hrest : Detached (valuePieces optional pieces) := by
    cases optional with
    | false =>
      have hvalue : Detached (.token .equals :: pieces) := h.detached trivial rfl nofun
      simpa [valuePieces, valueSign, valueClose] using hvalue
    | true =>
      have hclosed : Written (pieces ++ [.token (.closing .square)]) :=
        h.append (Detached.nil.cons trivial rfl nofun)
      have hvalue : Detached (.token .equals :: (pieces ++ [.token (.closing .square)])) :=
        hclosed.detached trivial rfl nofun
      show Detached (.token (.opening .square) :: .token .equals :: _)
      exact hvalue.cons trivial rfl nofun
  have hflag : Written [.token (.flag key)] := .single ⟨hne, hkey⟩ rfl
  exact hflag.append hrest

end Written

end Usage

/-! ## §4 The pieces of a tree that can be spelled -/

namespace Node

open Usage (Written Detached EndsMarkable enclosePieces needsParentheses)

theorem shownOcc_eq {node : Node} (h : node.Formed) : node.shownOcc = node.occ := by
  cases h <;> rfl

/-- The marker behind a node that can be spelled fits, whatever kind it is. -/
theorem markerFits_of_isSpelled {node : Node} (h : node.isSpelled = true) :
    node.markerFits = true := by
  cases node with
  | literal => exact h
  | flag => simp only [isSpelled, Bool.and_eq_true] at h; exact h.2
  | setting => simp only [isSpelled, Bool.and_eq_true] at h; exact h.2
  | hole => cases h
  | _ => simp [markerFits, takesMarker]

theorem takesMarker_of_markerFits {node : Node} (h : node.markerFits = true)
    (hrepeating : node.repeating = true) (hoptional : node.optional = false) :
    node.takesMarker = true := by
  simpa [markerFits, hrepeating, hoptional] using h

theorem memberPieces_ne_nil {nodes : List Node} (h : 2 ≤ nodes.length) :
    memberPieces nodes ≠ [] := by
  rw [memberPieces_eq_map, Ne, List.map_eq_nil_iff]
  rintro rfl
  cases h

theorem optional_of_isPlainValue {value : Node} (h : value.isPlainValue = true)
    (hrepeating : value.repeating = true) : value.optional = false := by
  cases value <;> first | cases h | simpa [isPlainValue, hrepeating] using h

/-- What is known of the pieces of a body: they are read back one by one, and if a marker may stand
behind the node and it is no group, it may stand behind these. -/
def BodyWritten (node : Node) : Prop :=
  Written node.bodyPieces ∧
    (node.takesMarker = true → node.isGrouped = false → EndsMarkable node.bodyPieces)

theorem BodyWritten.leaf {node : Node} {symbol : Symbol} (hpieces : node.bodyPieces = [.token symbol])
    (hspell : symbol.Spellable) (hbegins : symbol.begins = true)
    (htakes : node.takesMarker = true → symbol.takesMarker = true) : BodyWritten node := by
  unfold BodyWritten
  rw [hpieces]
  exact ⟨.single hspell hbegins, fun h _ => Usage.endsMarkable_single (htakes h)⟩

/-- A node that can be spelled is written with its marks if its body is. -/
theorem BodyWritten.pieces {node : Node} (h : BodyWritten node) (hformed : node.Formed)
    (hspelled : node.isSpelled = true) (nested : Bool) : Written (node.pieces nested) := by
  unfold Node.pieces
  rw [shownOcc_eq hformed]
  refine h.1.enclose fun hrepeating hoptional => h.2 ?_
  exact takesMarker_of_markerFits (markerFits_of_isSpelled hspelled) hrepeating hoptional

/-- Members of a group are written with their marks if their bodies are. -/
theorem written_of_mem_memberPieces {nodes : List Node} (hformed : ∀ node ∈ nodes, node.Formed)
    (hspelled : areSpelled nodes = true) (h : ∀ node ∈ nodes, BodyWritten node) :
    ∀ part ∈ memberPieces nodes, Written part := by
  intro part hpart
  rw [memberPieces_eq_map] at hpart
  obtain ⟨node, hnode, rfl⟩ := List.mem_map.mp hpart
  exact (h node hnode).pieces (hformed node hnode) (areSpelled_iff.mp hspelled node hnode) true

/-- The pieces of the body of a tree that can be spelled are read back one by one. -/
theorem bodyWritten_of_isSpelled {node : Node} (hformed : node.Formed)
    (hspelled : node.isSpelled = true) : BodyWritten node := by
  induction hformed with
  | literal hname => exact .leaf rfl hname rfl id
  | parameter hname => exact .leaf rfl hname rfl fun _ => rfl
  | flag hkey =>
    simp only [isSpelled, Bool.and_eq_true] at hspelled
    exact .leaf rfl ⟨hkey, hspelled.1⟩ rfl id
  | @setting occ key value hkey hvalue ih =>
    simp only [isSpelled, Bool.and_eq_true] at hspelled
    obtain ⟨⟨⟨hplain, hsimple⟩, hspelled⟩, -⟩ := hspelled
    obtain ⟨hwritten, hends⟩ := ih hspelled
    have htakes (hrepeating : value.repeating = true) : value.takesMarker = true :=
      takesMarker_of_markerFits (markerFits_of_isSpelled hspelled) hrepeating
        (optional_of_isPlainValue hsimple hrepeating)
    have hshown : value.shownOcc = value.occ := shownOcc_eq hvalue
    have hinner : Written (enclosePieces { value.occ with optional := false } true value.isGrouped
        value.bodyPieces) :=
      hwritten.enclose fun hrepeating _ => hends (htakes hrepeating)
    rw [BodyWritten, bodyPieces, hshown]
    refine ⟨hinner.value value.optional hkey hplain, fun h _ => ?_⟩
    refine hinner.endsMarkable_value key fun hoptional => ?_
    refine Usage.endsMarkable_enclosePieces fun hrepeating _ hparentheses => hends ?_ ?_
    · have hrepeating : value.repeating = false := hrepeating
      simpa [takesMarker, hoptional, hrepeating] using h
    · simpa [needsParentheses] using hparentheses
  | @sequence occ children hlength hchildren hfilled ih =>
    have hparts := written_of_mem_memberPieces hchildren hspelled fun child hchild =>
      ih child hchild (areSpelled_iff.mp hspelled child hchild)
    refine ⟨Written.join Written.afterBlank hparts (memberPieces_ne_nil hlength), fun _ hgrouped => ?_⟩
    exact absurd hlength (of_decide_eq_false hgrouped)
  | @choice occ alternatives hlength halternatives hfilled ih =>
    have hparts := written_of_mem_memberPieces halternatives hspelled fun alternative hmem =>
      ih alternative hmem (areSpelled_iff.mp hspelled alternative hmem)
    refine ⟨Written.join Written.afterBar hparts (memberPieces_ne_nil hlength), fun _ hgrouped => ?_⟩
    exact absurd hlength (of_decide_eq_false hgrouped)
  | nothing =>
    have hclosing : Detached [.token (.closing .round)] := Detached.nil.cons trivial rfl nofun
    have hpieces : Detached (bodyPieces .nothing) := hclosing.cons trivial rfl nofun
    exact ⟨⟨hpieces.spellable, hpieces.chain, _, _, rfl, rfl⟩,
      fun _ _ => Usage.endsMarkable_bracketPieces _⟩

/-- A tree that can be spelled is written in pieces whose symbols are read back just as they were
written. -/
theorem tokens_usage {node : Node} (hformed : node.Formed) (hspelled : node.isSpelled = true) :
    ∃ found, Usage.tokens node.usage = .ok found ∧
      found.map Usage.Token.symbol = symbolsOf (node.pieces false) := by
  have hwritten := (bodyWritten_of_isSpelled hformed hspelled).pieces hformed hspelled false
  rw [usage, ← textOf_pieces]
  refine Usage.tokens_of_pieces hwritten.spellable hwritten.chain ?_
  obtain ⟨symbol, rest, hpieces, hbegins⟩ := hwritten.begins
  rw [hpieces]
  rintro hmarker
  cases hmarker
  cases hbegins

end Node

end Synopsis
