/-
Synopsis.Proofs.Usage.Grammar — the grammar of usages.

`Builds` says which tree a run of symbols stands for, behind the alternatives and
the part of a row that have been read before it. It has one rule for each kind of
element and knows nothing of offsets: a group is an opening bracket, an expression
and the closing bracket, and no bracket has to be looked for.

An expression is compiled just if the grammar has a tree for its symbols
(`builds_of_expression`, `expression_of_builds`). That the bracket found by counting
is the one that belongs to the group rests on `nest_of_builds`: within an expression
the brackets of each kind are balanced.
-/
import Synopsis.Usage.Tree

namespace Synopsis

namespace Usage

/-! ## §1 The grammar -/

def Symbol.isValue : Symbol → Bool
  | .word _ | .parameter _ | .equals | .flag _ => true
  | _ => false

/-- The symbol is an element by itself wherever it stands. -/
def Symbol.isLeaf : Symbol → Bool
  | .word _ | .parameter _ | .equals => true
  | _ => false

def startsValue : List Symbol → Bool
  | .equals :: _ => true
  | .opening .square :: .equals :: _ => true
  | _ => false

def valueSign (optional : Bool) : List Symbol :=
  if optional then [.opening .square, .equals] else [.equals]

def valueClose (optional : Bool) : List Symbol := if optional then [.closing .square] else []

/-- The symbols stand for the tree, if `done` are the alternatives of the rows before them and
`row` is what has been read of their row. -/
inductive Builds : List Node → Row → List Symbol → Node → Prop where
  | finish (done : List Node) (row : Row) :
    Builds done row [] (Node.choiceOf (done ++ [row.node]) false).simplify
  | group {done : List Node} {row : Row} {bracket : Bracket} {inner rest : List Symbol}
    {node result : Node} (hinner : Builds [] {} inner node)
    (hrest : Builds done (row.push (bracketed bracket node)) rest result) :
    Builds done row (.opening bracket :: (inner ++ .closing bracket :: rest)) result
  | bar {done : List Node} {row : Row} {rest : List Symbol} {result : Node}
    (hrest : Builds (done ++ rowAlternatives row.node) {} rest result) :
    Builds done row (.bar :: rest) result
  | marker {done : List Node} {row : Row} {rest : List Symbol} {result : Node}
    (hstarted : row.started = true) (hrest : Builds done row.repeatLast rest result) :
    Builds done row (.marker :: rest) result
  | flag {done : List Node} {row : Row} {key : Text} {rest : List Symbol} {result : Node}
    (hbare : startsValue rest = false) (hrest : Builds done (row.push (.flag {} key)) rest result) :
    Builds done row (.flag key :: rest) result
  | setting {done : List Node} {row : Row} {key : Text} {symbol : Symbol} {rest : List Symbol}
    {result : Node} (optional : Bool) (hvalue : symbol.isValue = true)
    (hrest : Builds done (row.push (settingOf optional key symbol.leaf)) rest result) :
    Builds done row
      (.flag key :: (valueSign optional ++ symbol :: (valueClose optional ++ rest))) result
  | settingGroup {done : List Node} {row : Row} {key : Text} {bracket : Bracket}
    {inner rest : List Symbol} {node result : Node} (optional : Bool)
    (hinner : Builds [] {} inner node)
    (hrest : Builds done (row.push (settingOf optional key (bracketed bracket node))) rest result) :
    Builds done row
      (.flag key :: (valueSign optional ++ .opening bracket ::
        (inner ++ .closing bracket :: (valueClose optional ++ rest)))) result
  | leaf {done : List Node} {row : Row} {symbol : Symbol} {rest : List Symbol} {result : Node}
    (hleaf : symbol.isLeaf = true) (hrest : Builds done (row.push symbol.leaf) rest result) :
    Builds done row (symbol :: rest) result

/-! ## §2 Brackets -/

/-- How many brackets of a kind are open behind the symbol if `depth` are open before it, `none` if
it closes one that was not opened. -/
def nestOne (bracket : Bracket) (depth : Nat) (symbol : Symbol) : Option Nat :=
  if symbol = .closing bracket then
    match depth with
    | 0 => none
    | depth + 1 => some depth
  else if symbol = .opening bracket then some (depth + 1)
  else some depth

def nest (bracket : Bracket) (depth : Nat) : List Symbol → Option Nat
  | [] => some depth
  | symbol :: symbols => (nestOne bracket depth symbol).bind fun depth => nest bracket depth symbols

section Nesting

variable {bracket : Bracket} {depth : Nat}

theorem nest_append (symbols rest : List Symbol) :
    nest bracket depth (symbols ++ rest) =
      (nest bracket depth symbols).bind fun middle => nest bracket middle rest := by
  induction symbols generalizing depth with
  | nil => rfl
  | cons symbol symbols ih => simp only [List.cons_append, nest, ih, Option.bind_assoc]

/-- A symbol that is no bracket changes nothing. -/
theorem nest_cons {symbol : Symbol} (hopening : ∀ b, symbol ≠ .opening b)
    (hclosing : ∀ b, symbol ≠ .closing b) (rest : List Symbol) :
    nest bracket depth (symbol :: rest) = nest bracket depth rest := by
  simp [nest, nestOne, hopening, hclosing]

/-- A group of balanced symbols changes nothing. -/
theorem nest_group {other : Bracket} {inner : List Symbol}
    (hinner : ∀ depth, nest bracket depth inner = some depth) (rest : List Symbol) :
    nest bracket depth (.opening other :: (inner ++ .closing other :: rest)) =
      nest bracket depth rest := by
  by_cases hother : other = bracket
  · simp [nest, nestOne, nest_append, hinner, hother]
  · simp [nest, nestOne, nest_append, hinner, hother]

end Nesting

theorem Symbol.isValue_of_isLeaf {symbol : Symbol} (h : symbol.isLeaf = true) :
    symbol.isValue = true := by
  cases symbol <;> first | rfl | cases h

theorem Symbol.ne_opening_of_isValue {symbol : Symbol} (h : symbol.isValue = true)
    (bracket : Bracket) : symbol ≠ .opening bracket := by
  rintro rfl
  cases h

theorem Symbol.ne_closing_of_isValue {symbol : Symbol} (h : symbol.isValue = true)
    (bracket : Bracket) : symbol ≠ .closing bracket := by
  rintro rfl
  cases h

/-- The sign of a value, balanced symbols and what closes the value are balanced. -/
theorem nest_value {bracket : Bracket} {depth : Nat} {symbols : List Symbol}
    (hsymbols : ∀ depth rest, nest bracket depth (symbols ++ rest) = nest bracket depth rest)
    (optional : Bool) (rest : List Symbol) :
    nest bracket depth (valueSign optional ++ (symbols ++ (valueClose optional ++ rest))) =
      nest bracket depth rest := by
  cases optional with
  | false =>
    show nest bracket depth (.equals :: (symbols ++ rest)) = _
    rw [nest_cons (by simp) (by simp), hsymbols]
  | true =>
    show nest bracket depth (.opening .square :: .equals :: (symbols ++ .closing .square :: rest)) = _
    have hinner : ∀ depth, nest bracket depth (.equals :: symbols) = some depth := by
      intro depth
      rw [nest_cons (by simp) (by simp), ← List.append_nil symbols, hsymbols]
      rfl
    exact @nest_group bracket depth .square (.equals :: symbols) hinner rest

/-- In an expression the brackets of each kind are balanced. -/
theorem nest_of_builds {done : List Node} {row : Row} {symbols : List Symbol} {result : Node}
    (h : Builds done row symbols result) (bracket : Bracket) (depth : Nat) :
    nest bracket depth symbols = some depth := by
  induction h generalizing depth with
  | finish => rfl
  | group _ _ ihinner ihrest => rw [nest_group ihinner, ihrest]
  | bar _ ih => rw [nest_cons (by simp) (by simp), ih]
  | marker _ _ ih => rw [nest_cons (by simp) (by simp), ih]
  | flag _ _ ih => rw [nest_cons (by simp) (by simp), ih]
  | @setting _ _ _ symbol rest _ optional hvalue _ ih =>
    have hsymbol : ∀ depth rest, nest bracket depth ([symbol] ++ rest) = nest bracket depth rest :=
      fun depth rest => nest_cons (Symbol.ne_opening_of_isValue hvalue)
        (Symbol.ne_closing_of_isValue hvalue) rest
    rw [nest_cons (by simp) (by simp), ← ih depth]
    exact nest_value hsymbol optional rest
  | @settingGroup _ _ _ other inner rest _ _ optional _ _ ihinner ih =>
    have hgroup : ∀ depth rest,
        nest bracket depth ((.opening other :: (inner ++ [.closing other])) ++ rest) =
          nest bracket depth rest := by
      intro depth rest
      have h := @nest_group bracket depth other inner ihinner rest
      simpa using h
    rw [nest_cons (by simp) (by simp), ← ih depth]
    simpa using nest_value hgroup optional rest
  | leaf hleaf _ ih =>
    have hvalue := Symbol.isValue_of_isLeaf hleaf
    rw [nest_cons (Symbol.ne_opening_of_isValue hvalue) (Symbol.ne_closing_of_isValue hvalue), ih]

/-! ## §3 Groups -/

/-- A group is what stands before the closing bracket that it ends with. -/
theorem eq_of_takeGroup {bracket : Bracket} {depth : Nat} {tokens : List Token} {group : Group}
    (h : takeGroup bracket depth tokens = some group) :
    ∃ close : Token, close.symbol = .closing bracket ∧ close.start = group.close ∧
      tokens = group.inner ++ close :: group.rest := by
  induction tokens generalizing depth group with
  | nil => cases h
  | cons token tokens ih =>
    -- in all cases but one the token belongs to the group
    have hcons {depth : Nat} (h : (takeGroup bracket depth tokens).map (·.cons token) = some group) :
        ∃ close : Token, close.symbol = .closing bracket ∧ close.start = group.close ∧
          token :: tokens = group.inner ++ close :: group.rest := by
      obtain ⟨found, hfound, rfl⟩ := Option.map_eq_some_iff.mp h
      obtain ⟨close, hclose, hstart, heq⟩ := ih hfound
      exact ⟨close, hclose, hstart, by rw [heq]; rfl⟩
    unfold takeGroup at h
    split at h
    · rename_i hclosing
      split at h
      · cases h
        exact ⟨token, hclosing, rfl, rfl⟩
      · exact hcons h
    · split at h <;> exact hcons h

/-- A group goes on behind tokens that do not close it. -/
theorem takeGroup_append {bracket : Bracket} {depth depth' : Nat} {tokens : List Token}
    (h : nest bracket depth (tokens.map Token.symbol) = some depth') (rest : List Token) :
    takeGroup bracket depth (tokens ++ rest) =
      (takeGroup bracket depth' rest).map fun group =>
        { group with inner := tokens ++ group.inner } := by
  induction tokens generalizing depth with
  | nil =>
    cases h
    simp
  | cons token tokens ih =>
    rw [List.map_cons, nest] at h
    obtain ⟨middle, hone, hrest⟩ := Option.bind_eq_some_iff.mp h
    unfold nestOne at hone
    have hcons (found : Option Group) (heq : found = (takeGroup bracket depth' rest).map fun group =>
        { group with inner := tokens ++ group.inner }) :
        found.map (·.cons token) = (takeGroup bracket depth' rest).map fun group =>
          { group with inner := token :: tokens ++ group.inner } := by
      rw [heq, Option.map_map]
      rfl
    rw [List.cons_append, takeGroup.eq_def]
    split at hone
    · rename_i hclosing
      cases depth with
      | zero => cases hone
      | succ depth =>
        cases hone
        simp only [hclosing, if_true]
        exact hcons _ (ih hrest)
    · rename_i hclosing
      split at hone
      · rename_i hopening
        cases hone
        simp only [if_neg hclosing, if_pos hopening]
        exact hcons _ (ih hrest)
      · rename_i hopening
        cases hone
        simp only [if_neg hclosing, if_neg hopening]
        exact hcons _ (ih hrest)

/-- Balanced tokens before a closing bracket are a group. -/
theorem takeGroup_of_balanced {bracket : Bracket} {inner : List Token} (rest : List Token)
    {close : Token} (hinner : nest bracket 0 (inner.map Token.symbol) = some 0)
    (hclose : close.symbol = .closing bracket) :
    takeGroup bracket 0 (inner ++ close :: rest) = some ⟨inner, close.start, rest⟩ := by
  rw [takeGroup_append hinner, takeGroup, if_pos hclose]
  simp

/-- An expression before a closing bracket is a group. -/
theorem takeGroup_of_builds {bracket : Bracket} {inner rest : List Symbol} {node : Node}
    (hinner : Builds [] {} inner node) {tokens : List Token}
    (h : tokens.map Token.symbol = inner ++ .closing bracket :: rest) :
    ∃ group, takeGroup bracket 0 tokens = some group ∧
      group.inner.map Token.symbol = inner ∧ group.rest.map Token.symbol = rest := by
  obtain ⟨inside, tokens, rfl, hinside, htokens⟩ := List.map_eq_append_iff.mp h
  obtain ⟨close, after, rfl, hclose, hafter⟩ := List.map_eq_cons_iff.mp htokens
  have hbalanced : nest bracket 0 (inside.map Token.symbol) = some 0 := by
    rw [hinside, nest_of_builds hinner]
  exact ⟨_, takeGroup_of_balanced after hbalanced hclose, hinside, hafter⟩

/-! ## §4 Values -/

/-- The sign of a value, if there is one, stands before what is left. -/
theorem eq_of_valueStart {tokens rest : List Token} {optional : Bool}
    (h : valueStart tokens = some (optional, rest)) :
    tokens.map Token.symbol = valueSign optional ++ rest.map Token.symbol := by
  unfold valueStart at h
  split at h
  · split at h
    · rename_i hequals
      cases h
      rw [List.map_cons, hequals]
      rfl
    · rename_i hopening
      split at h
      · rename_i hequals
        cases h
        rw [List.map_cons, List.map_cons, hopening, hequals]
        rfl
      · cases h
    · cases h
  · cases h

/-- The sign of a value is found. -/
theorem valueStart_of_sign (optional : Bool) {tokens : List Token} {symbols : List Symbol}
    (h : tokens.map Token.symbol = valueSign optional ++ symbols) :
    ∃ rest, valueStart tokens = some (optional, rest) ∧ rest.map Token.symbol = symbols := by
  cases optional with
  | false =>
    obtain ⟨token, rest, rfl, hequals, hrest⟩ := List.map_eq_cons_iff.mp h
    exact ⟨rest, by simp [valueStart, hequals], hrest⟩
  | true =>
    obtain ⟨token, tokens, rfl, hopening, h⟩ := List.map_eq_cons_iff.mp h
    obtain ⟨next, rest, rfl, hequals, hrest⟩ := List.map_eq_cons_iff.mp h
    exact ⟨rest, by simp [valueStart, hopening, hequals], hrest⟩

theorem startsValue_of_sign (optional : Bool) (symbols : List Symbol) :
    startsValue (valueSign optional ++ symbols) = true := by
  cases optional <;> rfl

/-- There is no value if its sign is missing. -/
theorem valueStart_eq_none_iff {tokens : List Token} :
    valueStart tokens = none ↔ startsValue (tokens.map Token.symbol) = false := by
  constructor
  · intro hnone
    unfold startsValue
    split
    · rename_i heq
      obtain ⟨rest, hsome, -⟩ := valueStart_of_sign false heq
      cases hnone.symm.trans hsome
    · rename_i heq
      obtain ⟨rest, hsome, -⟩ := valueStart_of_sign true heq
      cases hnone.symm.trans hsome
    · rfl
  · intro h
    cases hstart : valueStart tokens with
    | none => rfl
    | some found =>
      rw [eq_of_valueStart hstart, startsValue_of_sign] at h
      cases h

/-- What closes a value stands before what is left. -/
theorem eq_of_valueEnd {optional : Bool} {stop : Nat} {tokens rest : List Token}
    (h : valueEnd optional stop tokens = .ok rest) :
    tokens.map Token.symbol = valueClose optional ++ rest.map Token.symbol := by
  cases optional with
  | false =>
    cases h
    rfl
  | true =>
    unfold valueEnd at h
    simp only [if_true] at h
    split at h
    · cases h
    · split at h
      · rename_i hclosing
        cases h
        rw [List.map_cons, hclosing]
        rfl
      · cases h

/-- What closes a value is found. -/
theorem valueEnd_of_close {optional : Bool} (stop : Nat) {tokens : List Token}
    {symbols : List Symbol} (h : tokens.map Token.symbol = valueClose optional ++ symbols) :
    ∃ rest, valueEnd optional stop tokens = .ok rest ∧ rest.map Token.symbol = symbols := by
  cases optional with
  | false => exact ⟨tokens, rfl, h⟩
  | true =>
    obtain ⟨token, rest, rfl, hclosing, hrest⟩ := List.map_eq_cons_iff.mp h
    exact ⟨rest, by simp [valueEnd, hclosing], hrest⟩

/-! ## §5 Expressions -/

/-- A tree that is found is the one that the grammar has for the symbols. -/
theorem builds_of_expression {stop : Nat} {done : List Node} {row : Row} {tokens : List Token}
    {result : Node} (h : expression stop done row tokens = .ok result) :
    Builds done row (tokens.map Token.symbol) result := by
  fun_induction expression stop done row tokens generalizing result with
  | case1 stop done row =>
    cases h
    exact .finish done row
  | case4 stop done row token tokens bracket hsymbol group hgroup node hinner ihinner ihrest =>
    obtain ⟨close, hclose, -, rfl⟩ := eq_of_takeGroup hgroup
    rw [List.map_cons, List.map_append, List.map_cons, hsymbol, hclose]
    exact .group (ihinner hinner) (ihrest h)
  | case6 stop done row token tokens hsymbol ih =>
    rw [List.map_cons, hsymbol]
    exact .bar (ih h)
  | case7 stop done row token tokens hsymbol hstarted ih =>
    rw [List.map_cons, hsymbol]
    exact .marker hstarted (ih h)
  | case9 stop done row token tokens key hsymbol hstart ih =>
    rw [List.map_cons, hsymbol]
    exact .flag (valueStart_eq_none_iff.mp hstart) (ih h)
  | case17 stop done row token tokens key hsymbol optional value after hstart bracket hvalue group
      hgroup node hinner rest hend ihinner ihrest =>
    obtain ⟨close, hclose, -, rfl⟩ := eq_of_takeGroup hgroup
    rw [List.map_cons, hsymbol, eq_of_valueStart hstart, List.map_cons, hvalue, List.map_append,
      List.map_cons, hclose, eq_of_valueEnd hend]
    exact .settingGroup optional (ihinner hinner) (ihrest h)
  | case19 stop done row token tokens key hsymbol optional value after hstart rest hend hbar hmarker
      hclosing hopening ih =>
    have hvalue : value.symbol.isValue = true := by
      cases hvalue : value.symbol <;> first | rfl | simp_all
    rw [List.map_cons, hsymbol, eq_of_valueStart hstart, List.map_cons, eq_of_valueEnd hend]
    exact .setting optional hvalue (ih h)
  | case20 stop done row token tokens hopening hclosing hbar hmarker hflag ih =>
    have hleaf : token.symbol.isLeaf = true := by
      cases hleaf : token.symbol <;> first | rfl | simp_all
    exact .leaf hleaf (ih h)
  | _ => cases h

section Steps

variable {stop : Nat} {done : List Node} {row : Row} {token : Token} {tokens : List Token}

theorem expression_group {bracket : Bracket} {group : Group} {node : Node}
    (hsymbol : token.symbol = .opening bracket) (hgroup : takeGroup bracket 0 tokens = some group)
    (hinner : expression group.close [] {} group.inner = .ok node) :
    expression stop done row (token :: tokens) =
      expression stop done (row.push (bracketed bracket node)) group.rest := by
  rw [expression]
  simp only [hsymbol]
  split
  · rename_i hnone
    cases hgroup.symm.trans hnone
  · rename_i found hfound
    cases hgroup.symm.trans hfound
    simp only [hinner]

theorem expression_flag {key : Text} (hsymbol : token.symbol = .flag key)
    (hstart : valueStart tokens = none) :
    expression stop done row (token :: tokens) =
      expression stop done (row.push (.flag {} key)) tokens := by
  rw [expression]
  simp only [hsymbol]
  split
  · rfl
  · rename_i hsome
    cases hstart.symm.trans hsome
  · rename_i hsome
    cases hstart.symm.trans hsome

theorem expression_setting {key : Text} {optional : Bool} {value : Token} {after rest : List Token}
    (hsymbol : token.symbol = .flag key) (hstart : valueStart tokens = some (optional, value :: after))
    (hvalue : value.symbol.isValue = true) (hend : valueEnd optional stop after = .ok rest) :
    expression stop done row (token :: tokens) =
      expression stop done (row.push (settingOf optional key value.symbol.leaf)) rest := by
  rw [expression]
  simp only [hsymbol]
  split
  · rename_i hnone
    cases hstart.symm.trans hnone
  · rename_i hsome
    cases hstart.symm.trans hsome
  · rename_i optional' value' after' hsome
    cases hstart.symm.trans hsome
    split
    case h_5 =>
      split
      · rename_i hfailed
        cases hend.symm.trans hfailed
      · rename_i hfound
        cases hend.symm.trans hfound
        rfl
    all_goals
      rename_i heq
      rw [heq] at hvalue
      cases hvalue

theorem expression_settingGroup {key : Text} {optional : Bool} {value : Token} {bracket : Bracket}
    {after rest : List Token} {group : Group} {node : Node} (hsymbol : token.symbol = .flag key)
    (hstart : valueStart tokens = some (optional, value :: after))
    (hvalue : value.symbol = .opening bracket) (hgroup : takeGroup bracket 0 after = some group)
    (hinner : expression group.close [] {} group.inner = .ok node)
    (hend : valueEnd optional stop group.rest = .ok rest) :
    expression stop done row (token :: tokens) =
      expression stop done (row.push (settingOf optional key (bracketed bracket node))) rest := by
  rw [expression]
  simp only [hsymbol]
  split
  · rename_i hnone
    cases hstart.symm.trans hnone
  · rename_i hsome
    cases hstart.symm.trans hsome
  · rename_i optional' value' after' hsome
    cases hstart.symm.trans hsome
    simp only [hvalue]
    split
    · rename_i hnone
      cases hgroup.symm.trans hnone
    · rename_i found hfound
      cases hgroup.symm.trans hfound
      simp only [hinner]
      split
      · rename_i hfailed
        cases hend.symm.trans hfailed
      · rename_i hrest
        cases hend.symm.trans hrest
        rfl

theorem expression_leaf (hleaf : token.symbol.isLeaf = true) :
    expression stop done row (token :: tokens) =
      expression stop done (row.push token.symbol.leaf) tokens := by
  rw [expression]
  split
  case h_6 => rfl
  all_goals
    rename_i heq
    rw [heq] at hleaf
    cases hleaf

end Steps

/-- The tree that the grammar has for the symbols is found. -/
theorem expression_of_builds {done : List Node} {row : Row} {symbols : List Symbol} {result : Node}
    (h : Builds done row symbols result) {tokens : List Token}
    (htokens : tokens.map Token.symbol = symbols) (stop : Nat) :
    expression stop done row tokens = .ok result := by
  induction h generalizing tokens stop with
  | finish done row =>
    obtain rfl := List.map_eq_nil_iff.mp htokens
    rw [expression]
  | group hinner _ ihinner ihrest =>
    obtain ⟨token, tokens, rfl, hsymbol, htokens⟩ := List.map_eq_cons_iff.mp htokens
    obtain ⟨group, hgroup, hinner', hrest⟩ := takeGroup_of_builds hinner htokens
    rw [expression_group hsymbol hgroup (ihinner hinner' _)]
    exact ihrest hrest stop
  | bar _ ih =>
    obtain ⟨token, rest, rfl, hsymbol, hrest⟩ := List.map_eq_cons_iff.mp htokens
    rw [expression]
    simp only [hsymbol]
    exact ih hrest stop
  | marker hstarted _ ih =>
    obtain ⟨token, rest, rfl, hsymbol, hrest⟩ := List.map_eq_cons_iff.mp htokens
    rw [expression]
    simp only [hsymbol, hstarted, if_true]
    exact ih hrest stop
  | flag hbare _ ih =>
    obtain ⟨token, rest, rfl, hsymbol, hrest⟩ := List.map_eq_cons_iff.mp htokens
    rw [expression_flag hsymbol (valueStart_eq_none_iff.mpr (by rwa [hrest]))]
    exact ih hrest stop
  | setting optional hvalue _ ih =>
    obtain ⟨token, tokens, rfl, hsymbol, htokens⟩ := List.map_eq_cons_iff.mp htokens
    obtain ⟨tokens, hstart, htokens⟩ := valueStart_of_sign optional htokens
    obtain ⟨value, after, rfl, rfl, hafter⟩ := List.map_eq_cons_iff.mp htokens
    obtain ⟨rest, hend, hrest⟩ := valueEnd_of_close stop hafter
    rw [expression_setting hsymbol hstart hvalue hend]
    exact ih hrest stop
  | settingGroup optional hinner _ ihinner ihrest =>
    obtain ⟨token, tokens, rfl, hsymbol, htokens⟩ := List.map_eq_cons_iff.mp htokens
    obtain ⟨tokens, hstart, htokens⟩ := valueStart_of_sign optional htokens
    obtain ⟨value, tokens, rfl, hvalue, htokens⟩ := List.map_eq_cons_iff.mp htokens
    obtain ⟨group, hgroup, hinner', hafter⟩ := takeGroup_of_builds hinner htokens
    obtain ⟨rest, hend, hrest⟩ := valueEnd_of_close stop hafter
    rw [expression_settingGroup hsymbol hstart hvalue hgroup (ihinner hinner' _) hend]
    exact ihrest hrest stop
  | leaf hleaf _ ih =>
    obtain ⟨token, rest, rfl, rfl, hrest⟩ := List.map_eq_cons_iff.mp htokens
    rw [expression_leaf hleaf]
    exact ih hrest stop

/-- A usage is compiled to the tree that the grammar has for its symbols. -/
theorem parse_eq_ok_iff {usage : Text} {tree : Node} :
    parse usage = .ok tree ↔
      ∃ found, tokens usage = .ok found ∧ Builds [] {} (found.map Token.symbol) tree := by
  unfold parse
  constructor
  · intro h
    split at h
    · cases h
    · rename_i found hfound
      exact ⟨found, hfound, builds_of_expression h⟩
  · rintro ⟨found, hfound, hbuilds⟩
    simp only [hfound]
    exact expression_of_builds hbuilds rfl usage.length

end Usage

end Synopsis
