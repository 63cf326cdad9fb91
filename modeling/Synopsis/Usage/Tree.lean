/-
Synopsis.Usage.Tree — the tree of a usage.

A usage is a choice between rows, which are separated by bars. A row is a
sequence of elements, and a repetition marker repeats the element before it. An
element is a plain word, a parameter, a flag with or without a value, or a usage
of its own in brackets, which is optional if they are square.

    a b      a and b have to be supplied in this order
    a|b      either a or b, lowest precedence (a b|c is the same as (a b)|c)
    [a]      a is optional
    a...     a may be repeated, at least one instance, highest precedence
    (a b)    a and b act as a common element in the surrounding context
    x        literal input x required
    <x>      x is a variable capturing any input token
    --x      position independent flag x
    --x=a    flag x with mandatory value a
    --x[=a]  flag x, optionally with value a
-/
import Synopsis.Node.Commitment
import Synopsis.Usage.Token

namespace Synopsis

namespace Usage

/-! ## §1 Groups -/

/-- A group without its opening bracket: the tokens inside, the offset of the bracket that
closes it, and the tokens after that. -/
structure Group where
  inner : List Token
  close : Nat
  rest : List Token

namespace Group

def cons (token : Token) (group : Group) : Group := { group with inner := token :: group.inner }

end Group

/-- The group that the tokens begin with, its opening bracket left out. Only brackets of the
same kind are counted; `depth` of them are open inside the group. -/
def takeGroup (bracket : Bracket) (depth : Nat) : List Token → Option Group
  | [] => none
  | token :: tokens =>
    if token.symbol = .closing bracket then
      match depth with
      | 0 => some ⟨[], token.start, tokens⟩
      | depth + 1 => (takeGroup bracket depth tokens).map (·.cons token)
    else if token.symbol = .opening bracket then
      (takeGroup bracket (depth + 1) tokens).map (·.cons token)
    else (takeGroup bracket depth tokens).map (·.cons token)

/-- A group and what follows it have together one token less than the tokens they come from. -/
theorem length_of_takeGroup {bracket : Bracket} {depth : Nat} {tokens : List Token} {group : Group}
    (h : takeGroup bracket depth tokens = some group) :
    group.inner.length + group.rest.length + 1 = tokens.length := by
  induction tokens generalizing depth group with
  | nil => simp [takeGroup] at h
  | cons token tokens ih =>
    unfold takeGroup at h
    split at h
    · split at h
      · cases h; simp
      · obtain ⟨g, hg, rfl⟩ := Option.map_eq_some_iff.1 h
        simp only [Group.cons, List.length_cons, ← ih hg]; omega
    · split at h <;>
      · obtain ⟨g, hg, rfl⟩ := Option.map_eq_some_iff.1 h
        simp only [Group.cons, List.length_cons, ← ih hg]; omega

/-! ## §2 Rows -/

/-- The part of a row that has been read. `items` are its elements other than nothing; nothing
is no element, but a repetition marker may stand after it and then marks no element either. -/
structure Row where
  items : List Node := []
  started : Bool := false
  endsEmpty : Bool := false

namespace Row

def push (row : Row) (node : Node) : Row :=
  if node.isEmpty then { row with started := true, endsEmpty := true }
  else ⟨row.items ++ [node], true, false⟩

def repeatLast (row : Row) : Row :=
  if row.endsEmpty then row
  else { row with items := row.items.modify (row.items.length - 1) (Node.setRepeating true) }

def node (row : Row) : Node :=
  match row.items with
  | [] => .nothing
  | [item] => item
  | items => Node.sequenceOf items false

end Row

/-- The alternatives that a row before a bar adds to the expression. A choice that does not
repeat adds its own alternatives, and nothing if it is optional. -/
def rowAlternatives : Node → List Node
  | .choice occ alternatives =>
    if occ.repeating then [.choice occ alternatives]
    else alternatives ++ if occ.optional then [.nothing] else []
  | node => [node]

/-! ## §3 Elements -/

def Symbol.leaf : Symbol → Node
  | .word name => .literal {} name
  | .parameter name => .parameter {} name
  | .flag key => .flag {} key
  | .equals => .literal {} ['=']
  | _ => .nothing

/-- The tokens after the sign that a flag has a value, which is `=` or `[=`, and whether the
value is optional. -/
def valueStart : List Token → Option (Bool × List Token)
  | token :: tokens =>
    match token.symbol, tokens with
    | .equals, _ => some (false, tokens)
    | .opening .square, next :: rest => if next.symbol = .equals then some (true, rest) else none
    | _, _ => none
  | [] => none

/-- The tokens after a flag's value, whose bracket has to be closed if it is optional. `stop` is
the offset where the tokens end. -/
def valueEnd (optional : Bool) (stop : Nat) (tokens : List Token) :
    Except UsageError (List Token) :=
  if optional then
    match tokens with
    | [] => .error (.unclosedValue stop)
    | token :: rest =>
      if token.symbol = .closing .square then .ok rest else .error (.unclosedValue token.start)
  else .ok tokens

theorem length_lt_of_valueStart {tokens rest : List Token} {optional : Bool}
    (h : valueStart tokens = some (optional, rest)) : rest.length < tokens.length := by
  unfold valueStart at h
  split at h
  · split at h
    · cases h; simp only [List.length_cons]; omega
    · split at h
      · cases h; simp only [List.length_cons]; omega
      · cases h
    · cases h
  · cases h

theorem length_le_of_valueEnd {tokens rest : List Token} {optional : Bool} {stop : Nat}
    (h : valueEnd optional stop tokens = .ok rest) : rest.length ≤ tokens.length := by
  unfold valueEnd at h
  split at h
  · split at h
    · cases h
    · split at h
      · cases h; simp
      · cases h
  · cases h; exact Nat.le_refl _

def bracketed (bracket : Bracket) (node : Node) : Node :=
  if bracket = .square then node.setOptional true else node

def settingOf (optional : Bool) (key : Text) (value : Node) : Node :=
  .setting {} key (if optional then value.setOptional true else value)

/-! ## §4 Expressions -/

/-- The tree of a run of tokens that ends at the offset `stop`. `done` are the alternatives of
the rows before the current one, and `row` is what has been read of that. -/
def expression (stop : Nat) (done : List Node) (row : Row) (tokens : List Token) :
    Except UsageError Node :=
  match tokens with
  | [] => .ok (Node.choiceOf (done ++ [row.node]) false).simplify
  | token :: tokens =>
    match token.symbol with
    | .opening bracket =>
      match _hgroup : takeGroup bracket 0 tokens with
      | none => .error (.unclosedGroup token.start bracket)
      | some group =>
        match expression group.close [] {} group.inner with
        | .error error => .error error
        | .ok node => expression stop done (row.push (bracketed bracket node)) group.rest
    | .closing bracket => .error (.unmatchedClosing token.start bracket)
    | .bar => expression stop (done ++ rowAlternatives row.node) {} tokens
    | .marker =>
      if row.started then expression stop done row.repeatLast tokens
      else .error (.standaloneMarker token.start)
    | .flag key =>
      match _hstart : valueStart tokens with
      | none => expression stop done (row.push (.flag {} key)) tokens
      | some (_, []) => .error (.missingValue stop)
      | some (optional, value :: after) =>
        match value.symbol with
        | .bar | .marker | .closing _ => .error (.missingValue value.start)
        | .opening bracket =>
          match _hgroup : takeGroup bracket 0 after with
          | none => .error (.unclosedGroup value.start bracket)
          | some group =>
            match expression group.close [] {} group.inner with
            | .error error => .error error
            | .ok node =>
              match _hend : valueEnd optional stop group.rest with
              | .error error => .error error
              | .ok rest =>
                expression stop done
                  (row.push (settingOf optional key (bracketed bracket node))) rest
        | symbol =>
          match _hend : valueEnd optional stop after with
          | .error error => .error error
          | .ok rest => expression stop done (row.push (settingOf optional key symbol.leaf)) rest
    | symbol => expression stop done (row.push symbol.leaf) tokens
termination_by tokens.length
decreasing_by
  all_goals simp only [List.length_cons]
  · have := length_of_takeGroup _hgroup; omega
  · have := length_of_takeGroup _hgroup; omega
  · omega
  · omega
  · omega
  · have h1 := length_lt_of_valueStart _hstart
    have h2 := length_of_takeGroup _hgroup
    simp only [List.length_cons] at h1; omega
  · have h1 := length_lt_of_valueStart _hstart
    have h2 := length_of_takeGroup _hgroup
    have h3 := length_le_of_valueEnd _hend
    simp only [List.length_cons] at h1; omega
  · have h1 := length_lt_of_valueStart _hstart
    have h3 := length_le_of_valueEnd _hend
    simp only [List.length_cons] at h1; omega
  · omega

/-- The tree of a usage as it is written. -/
def parse (usage : Text) : Except UsageError Node :=
  match tokens usage with
  | .error error => .error error
  | .ok tokens => expression usage.length [] {} tokens

/-- The tree of a usage, with its ambiguous sequences turned into choices if asked for. -/
def compile (usage : Text) (committing : Bool) : Except UsageError Node :=
  (parse usage).map fun tree => if committing then tree.commit else tree

end Usage

end Synopsis
