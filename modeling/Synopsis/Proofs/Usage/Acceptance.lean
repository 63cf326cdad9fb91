/-
Synopsis.Proofs.Usage.Acceptance — which usages compile.

`Sentence` is the grammar of usages as a usage's author has it in mind: phrases put
together of phrases, without trees, rows that have been begun, or offsets. A usage
compiles just if its symbols are an expression (`exists_builds_iff`). In one direction
a phrase is built behind whatever stands before it (`accepts_of_sentence`), in the other
the symbols that are left are the rest of a row and the rows behind it
(`continues_of_builds`).

A usage that does not compile is refused at one of its tokens or at its end
(`refusedAt_of_expression`, `position_le_of_tokensFrom`), and turning ambiguous
sequences into choices adds no way to fail.
-/
import Synopsis.Proofs.Match.Soundness
import Synopsis.Proofs.Node.Unambiguous

namespace Synopsis

namespace Usage

/-! ## §1 Phrases -/

/-- The kinds of phrases. -/
inductive Phrase where
  /-- Rows with bars between them. -/
  | expression
  /-- Elements one after the other, or none. -/
  | row
  /-- What may follow an element in its row. -/
  | items
  | item
  | flag
  | value
deriving DecidableEq

/-- The symbols may stand before others in a row: if they are a flag alone, no sign of a value
follows. -/
def MayPrecede (symbols rest : List Symbol) : Prop :=
  ∀ key, symbols = [.flag key] → startsValue rest = false

/-- The symbols are a phrase of the kind. -/
inductive Sentence : Phrase → List Symbol → Prop where
  | lastRow {row : List Symbol} (hrow : Sentence .row row) : Sentence .expression row
  | nextRow {row rest : List Symbol} (hrow : Sentence .row row)
    (hrest : Sentence .expression rest) : Sentence .expression (row ++ .bar :: rest)
  | noItem : Sentence .row []
  | firstItem {item rest : List Symbol} (hitem : Sentence .item item)
    (hnext : MayPrecede item rest) (hrest : Sentence .items rest) : Sentence .row (item ++ rest)
  | rowEnd : Sentence .items []
  | nextItem {item rest : List Symbol} (hitem : Sentence .item item)
    (hnext : MayPrecede item rest) (hrest : Sentence .items rest) : Sentence .items (item ++ rest)
  | marker {rest : List Symbol} (hrest : Sentence .items rest) : Sentence .items (.marker :: rest)
  | group (bracket : Bracket) {inner : List Symbol} (hinner : Sentence .expression inner) :
    Sentence .item (.opening bracket :: (inner ++ [.closing bracket]))
  | flagItem {symbols : List Symbol} (hflag : Sentence .flag symbols) : Sentence .item symbols
  | leaf {symbol : Symbol} (hleaf : symbol.isLeaf = true) : Sentence .item [symbol]
  | bareFlag (key : Text) : Sentence .flag [.flag key]
  | setting (optional : Bool) (key : Text) {value : List Symbol} (hvalue : Sentence .value value) :
    Sentence .flag (.flag key :: (valueSign optional ++ (value ++ valueClose optional)))
  | valueGroup (bracket : Bracket) {inner : List Symbol} (hinner : Sentence .expression inner) :
    Sentence .value (.opening bracket :: (inner ++ [.closing bracket]))
  | singleValue {symbol : Symbol} (hvalue : symbol.isValue = true) : Sentence .value [symbol]

/-! ## §2 Phrases are built -/

/-- Behind any part of a row there is a tree for the symbols. -/
def BuildsBehind (symbols : List Symbol) : Prop :=
  ∀ done row, row.started = true → ∃ result, Builds done row symbols result

/-- The row ends here, and there is a tree for what follows. -/
def EndsRow (symbols : List Symbol) : Prop :=
  (symbols = [] ∨ ∃ rest, symbols = .bar :: rest) ∧
    ∀ done row, ∃ result, Builds done row symbols result

/-- What a phrase of the kind contributes to the tree of the symbols it stands among. -/
def Accepts : Phrase → List Symbol → Prop
  | .expression, symbols => ∀ done row, ∃ result, Builds done row symbols result
  | .row, symbols => ∀ done row rest, EndsRow rest →
    ∃ result, Builds done row (symbols ++ rest) result
  | .items, symbols => ∀ rest, EndsRow rest → BuildsBehind (symbols ++ rest)
  | .item, symbols | .flag, symbols => ∀ done row rest, MayPrecede symbols rest →
    BuildsBehind rest → ∃ result, Builds done row (symbols ++ rest) result
  | .value, symbols => ∀ done row rest key optional, BuildsBehind rest →
    ∃ result, Builds done row
      (.flag key :: (valueSign optional ++ (symbols ++ (valueClose optional ++ rest)))) result

@[simp] theorem started_push (row : Row) (node : Node) : (row.push node).started = true := by
  unfold Row.push
  split <;> rfl

@[simp] theorem started_repeatLast (row : Row) : row.repeatLast.started = row.started := by
  unfold Row.repeatLast
  split <;> rfl

theorem endsRow_nil : EndsRow [] := ⟨.inl rfl, fun _ _ => ⟨_, .finish _ _⟩⟩

theorem EndsRow.bar {rest : List Symbol}
    (h : ∀ done row, ∃ result, Builds done row rest result) : EndsRow (.bar :: rest) := by
  refine ⟨.inr ⟨rest, rfl⟩, fun done row => ?_⟩
  obtain ⟨result, hrest⟩ := h (done ++ rowAlternatives row.node) {}
  exact ⟨result, .bar hrest⟩

/-- No sign of a value goes over into symbols that neither begin nor complete one. -/
theorem startsValue_append {rest : List Symbol} (hrest : startsValue rest = false)
    (hopening : startsValue (.opening .square :: rest) = false) (symbols : List Symbol) :
    startsValue (symbols ++ rest) = startsValue symbols := by
  match symbols with
  | [] => exact hrest
  | [symbol] =>
    cases symbol with
    | opening bracket =>
      cases bracket with
      | round => rfl
      | square => exact hopening
    | _ => rfl
  | symbol :: next :: symbols => cases symbol with
    | opening bracket => cases bracket <;> cases next <;> rfl
    | _ => rfl

/-- No sign of a value goes over the end of a row. -/
theorem startsValue_append_of_endsRow {symbols rest : List Symbol} (h : EndsRow rest) :
    startsValue (symbols ++ rest) = startsValue symbols := by
  rcases h.1 with rfl | ⟨others, rfl⟩
  · exact startsValue_append rfl rfl symbols
  · exact startsValue_append rfl rfl symbols

theorem MayPrecede.append {item symbols rest : List Symbol} (h : MayPrecede item symbols)
    (hrest : EndsRow rest) : MayPrecede item (symbols ++ rest) := fun key hkey => by
  rw [startsValue_append_of_endsRow hrest, h key hkey]

/-- A phrase is built wherever it stands. The induction is on the phrase. -/
theorem accepts_of_sentence {phrase : Phrase} {symbols : List Symbol}
    (h : Sentence phrase symbols) : Accepts phrase symbols := by
  induction h with
  | lastRow _ ih =>
    intro done row
    simpa using ih done row [] endsRow_nil
  | nextRow _ _ ihrow ihrest => exact fun done row => ihrow done row _ (.bar ihrest)
  | noItem => exact fun done row rest hrest => hrest.2 done row
  | firstItem _ hnext _ ihitem ihrest =>
    intro done row rest hrest
    rw [List.append_assoc]
    exact ihitem done row _ (hnext.append hrest) (ihrest rest hrest)
  | rowEnd => exact fun rest hrest done row _ => hrest.2 done row
  | nextItem _ hnext _ ihitem ihrest =>
    intro rest hrest done row _
    rw [List.append_assoc]
    exact ihitem done row _ (hnext.append hrest) (ihrest rest hrest)
  | marker _ ih =>
    intro rest hrest done row hstarted
    obtain ⟨result, hbuilds⟩ := ih rest hrest done row.repeatLast (by simpa using hstarted)
    exact ⟨result, .marker hstarted hbuilds⟩
  | group bracket _ ih =>
    intro done row rest _ hrest
    obtain ⟨node, hinner⟩ := ih [] {}
    obtain ⟨result, hbuilds⟩ := hrest done (row.push (bracketed bracket node)) (by simp)
    exact ⟨result, by simpa using Builds.group hinner hbuilds⟩
  | flagItem _ ih => exact ih
  | leaf hleaf =>
    intro done row rest _ hrest
    obtain ⟨result, hbuilds⟩ := hrest done _ (started_push row _)
    exact ⟨result, .leaf hleaf hbuilds⟩
  | bareFlag key =>
    intro done row rest hnext hrest
    obtain ⟨result, hbuilds⟩ := hrest done _ (started_push row _)
    exact ⟨result, .flag (hnext key rfl) hbuilds⟩
  | setting optional key _ ih =>
    intro done row rest _ hrest
    simpa using ih done row rest key optional hrest
  | valueGroup bracket _ ih =>
    intro done row rest key optional hrest
    obtain ⟨node, hinner⟩ := ih [] {}
    obtain ⟨result, hbuilds⟩ := hrest done _ (started_push row _)
    exact ⟨result, by simpa using Builds.settingGroup optional hinner hbuilds⟩
  | singleValue hvalue =>
    intro done row rest key optional hrest
    obtain ⟨result, hbuilds⟩ := hrest done _ (started_push row _)
    exact ⟨result, .setting optional hvalue hbuilds⟩

/-! ## §3 What is built are phrases -/

/-- The symbols are the rest of a row, which is a phrase of the kind, and the rows behind it. -/
def Continues (phrase : Phrase) (symbols : List Symbol) : Prop :=
  ∃ front rest, symbols = front ++ rest ∧ Sentence phrase front ∧
    (rest = [] ∨ ∃ others, rest = .bar :: others ∧ Sentence .expression others)

/-- The phrase that goes on with a row: it may be empty or begin with a marker only if something
stands before it. -/
def Row.phrase (row : Row) : Phrase := if row.started then .items else .row

section Continuing

variable {phrase : Phrase} {symbols rest : List Symbol}

theorem Continues.expression (h : Continues .row symbols) : Sentence .expression symbols := by
  obtain ⟨front, rest, rfl, hfront, rfl | ⟨others, rfl, hothers⟩⟩ := h
  · rw [List.append_nil]
    exact .lastRow hfront
  · exact .nextRow hfront hothers

theorem sentence_nil_phrase (row : Row) : Sentence row.phrase [] := by
  unfold Row.phrase
  split
  · exact .rowEnd
  · exact .noItem

theorem sentence_item_phrase {row : Row} {item : List Symbol} (hitem : Sentence .item item)
    (hnext : MayPrecede item rest) (hrest : Sentence .items rest) :
    Sentence row.phrase (item ++ rest) := by
  unfold Row.phrase
  split
  · exact .nextItem hitem hnext hrest
  · exact .firstItem hitem hnext hrest

theorem startsValue_of_append (h : startsValue (symbols ++ rest) = false) :
    startsValue symbols = false := by
  unfold startsValue at h ⊢
  split
  · cases h
  · cases h
  · rfl

/-- An element stands before what is left of its row. -/
theorem Continues.item (row : Row) {item : List Symbol} (hitem : Sentence .item item)
    (hnext : MayPrecede item symbols) (h : Continues .items symbols) :
    Continues row.phrase (item ++ symbols) := by
  obtain ⟨front, rest, rfl, hfront, hrest⟩ := h
  refine ⟨item ++ front, rest, by simp, sentence_item_phrase hitem ?_ hfront, hrest⟩
  exact fun key hkey => startsValue_of_append (hnext key hkey)

theorem Continues.marker (h : Continues .items symbols) :
    Continues .items (.marker :: symbols) := by
  obtain ⟨front, rest, rfl, hfront, hrest⟩ := h
  exact ⟨.marker :: front, rest, rfl, .marker hfront, hrest⟩

/-- A phrase that is no flag alone may stand before anything. -/
theorem mayPrecede_of_length {item : List Symbol} (h : item.length ≠ 1) (rest : List Symbol) :
    MayPrecede item rest := by
  rintro key rfl
  exact absurd rfl h

end Continuing

/-- What is built behind a part of a row are the rest of it and further rows. -/
theorem continues_of_builds {done : List Node} {row : Row} {symbols : List Symbol} {result : Node}
    (h : Builds done row symbols result) : Continues row.phrase symbols := by
  have hpush (row : Row) (node : Node) : (row.push node).phrase = .items := by simp [Row.phrase]
  induction h with
  | finish done row => exact ⟨[], [], rfl, sentence_nil_phrase row, .inl rfl⟩
  | @group _ row bracket inner rest _ _ _ _ ihinner ihrest =>
    rw [hpush] at ihrest
    have hitem := Sentence.group bracket ihinner.expression
    simpa using ihrest.item row hitem (mayPrecede_of_length (by simp) _)
  | @bar _ row rest _ _ ih =>
    exact ⟨[], .bar :: rest, rfl, sentence_nil_phrase row, .inr ⟨rest, rfl, ih.expression⟩⟩
  | @marker _ row _ _ hstarted _ ih =>
    rw [Row.phrase, started_repeatLast, hstarted, if_pos rfl] at ih
    rw [Row.phrase, hstarted, if_pos rfl]
    exact ih.marker
  | @flag _ row key _ _ hbare _ ih =>
    rw [hpush] at ih
    exact ih.item row (.flagItem (.bareFlag key)) fun _ _ => hbare
  | @setting _ row key symbol rest _ optional hvalue _ ih =>
    rw [hpush] at ih
    have hitem := Sentence.flagItem (.setting optional key (.singleValue hvalue))
    simpa using ih.item row hitem
      (mayPrecede_of_length (by cases optional <;> simp [valueSign]) _)
  | @settingGroup _ row key bracket inner rest _ _ optional _ _ ihinner ihrest =>
    rw [hpush] at ihrest
    have hitem := Sentence.flagItem (.setting optional key (.valueGroup bracket ihinner.expression))
    simpa using ihrest.item row hitem
      (mayPrecede_of_length (by cases optional <;> simp [valueSign]) _)
  | @leaf _ row symbol _ _ hleaf _ ih =>
    rw [hpush] at ih
    refine ih.item row (.leaf hleaf) ?_
    rintro key ⟨⟩
    cases hleaf

/-- There is a tree for the symbols just if they are an expression. -/
theorem exists_builds_iff {symbols : List Symbol} :
    (∃ tree, Builds [] {} symbols tree) ↔ Sentence .expression symbols := by
  constructor
  · rintro ⟨tree, h⟩
    exact (continues_of_builds h).expression
  · exact fun h => accepts_of_sentence h [] {}

/-! ## §4 Where a usage is refused -/

theorem position_of_takeToken {position : Nat} {previous : Option Char} {c : Char} {rest : Text}
    {error : UsageError} (h : takeToken position previous c rest = .error error) :
    error.position = position := by
  unfold takeToken at h
  split at h
  · split at h
    · cases h
      rfl
    · cases h
  · split at h
    · split at h
      · cases h
        rfl
      · cases h
    · split at h <;> cases h

/-- A token and what comes after it are as long as the text. -/
theorem length_of_takeToken {position : Nat} {previous : Option Char} {c : Char}
    {rest text after : Text} (h : takeToken position previous c rest = .ok (text, after)) :
    text.length + after.length = (c :: rest).length := by
  rw [← List.length_append, (takeToken_append h).2]

/-- Every token begins inside the text it is cut from. -/
theorem start_le_of_tokensFrom {position : Nat} {previous : Option Char} {text : Text}
    {found : List Token} (h : tokensFrom position previous text = .ok found) :
    ∀ token ∈ found, token.start ≤ position + text.length := by
  fun_induction tokensFrom position previous text generalizing found with
  | case1 =>
    cases h
    simp
  | case2 position _ c rest _ ih =>
    intro token htoken
    have hle := ih h token htoken
    rw [List.length_cons]
    omega
  | case3 => cases h
  | case4 position previous c rest hblank text after htaken ih =>
    generalize hothers : tokensFrom (position + text.length) text.getLast? after = others at h
    cases others with
    | error failure => cases h
    | ok others =>
      cases h
      have hlength := length_of_takeToken htaken
      intro token htoken
      rcases List.mem_cons.mp htoken with rfl | htoken
      · exact Nat.le_add_right _ _
      · have hle := ih hothers token htoken
        omega

/-- A text that cannot be cut into tokens is refused inside it. -/
theorem position_le_of_tokensFrom {position : Nat} {previous : Option Char} {text : Text}
    {error : UsageError} (h : tokensFrom position previous text = .error error) :
    error.position ≤ position + text.length := by
  fun_induction tokensFrom position previous text with
  | case1 => cases h
  | case2 position _ c rest _ ih =>
    have hle := ih h
    rw [List.length_cons]
    omega
  | case3 position previous c rest _ failure htaken =>
    cases h
    rw [position_of_takeToken htaken]
    exact Nat.le_add_right _ _
  | case4 position previous c rest hblank text after htaken ih =>
    generalize hothers : tokensFrom (position + text.length) text.getLast? after = others at h
    cases others with
    | ok others => cases h
    | error failure =>
      cases h
      have hlength := length_of_takeToken htaken
      have hle := ih hothers
      omega

theorem suffix_of_valueStart {tokens rest : List Token} {optional : Bool}
    (h : valueStart tokens = some (optional, rest)) : rest <:+ tokens := by
  unfold valueStart at h
  split at h
  · split at h
    · cases h
      exact List.suffix_cons _ _
    · split at h
      · cases h
        exact (List.suffix_cons _ _).trans (List.suffix_cons _ _)
      · cases h
    · cases h
  · cases h

theorem suffix_of_valueEnd {tokens rest : List Token} {optional : Bool} {stop : Nat}
    (h : valueEnd optional stop tokens = .ok rest) : rest <:+ tokens := by
  unfold valueEnd at h
  split at h
  · split at h
    · cases h
    · split at h
      · cases h
        exact List.suffix_cons _ _
      · cases h
  · cases h
    exact List.suffix_rfl

/-- The problem was noticed at one of the tokens or at their end. -/
def RefusedAt (stop : Nat) (tokens : List Token) (error : UsageError) : Prop :=
  error.position = stop ∨ ∃ token ∈ tokens, error.position = token.start

section Refusals

variable {stop : Nat} {tokens rest : List Token} {error : UsageError}

theorem refusedAt_of_mem {token : Token} (htoken : token ∈ tokens)
    (h : error.position = token.start) : RefusedAt stop tokens error :=
  .inr ⟨token, htoken, h⟩

theorem RefusedAt.suffix (h : RefusedAt stop rest error) (hrest : rest <:+ tokens) :
    RefusedAt stop tokens error := by
  rcases h with hstop | ⟨token, htoken, heq⟩
  · exact .inl hstop
  · exact refusedAt_of_mem (hrest.subset htoken) heq

theorem RefusedAt.cons (h : RefusedAt stop tokens error) (token : Token) :
    RefusedAt stop (token :: tokens) error :=
  h.suffix (List.suffix_cons _ _)

/-- A group ends at one of the tokens it is taken from. -/
theorem RefusedAt.group {bracket : Bracket} {depth : Nat} {group : Group}
    (hgroup : takeGroup bracket depth tokens = some group)
    (h : RefusedAt group.close group.inner error) : RefusedAt stop tokens error := by
  obtain ⟨close, -, hclose, rfl⟩ := eq_of_takeGroup hgroup
  rcases h with hstop | ⟨token, htoken, heq⟩
  · exact .inr ⟨close, by simp, by rw [hstop, hclose]⟩
  · exact .inr ⟨token, by simp [htoken], heq⟩

theorem suffix_of_takeGroup {bracket : Bracket} {depth : Nat} {group : Group}
    (hgroup : takeGroup bracket depth tokens = some group) : group.rest <:+ tokens := by
  obtain ⟨close, -, -, rfl⟩ := eq_of_takeGroup hgroup
  exact (List.suffix_cons _ _).trans (List.suffix_append _ _)

theorem refusedAt_of_valueEnd {optional : Bool}
    (h : valueEnd optional stop tokens = .error error) : RefusedAt stop tokens error := by
  unfold valueEnd at h
  split at h
  · split at h
    · cases h
      exact .inl rfl
    · rename_i token rest
      split at h
      · cases h
      · cases h
        exact .inr ⟨token, List.mem_cons_self, rfl⟩
  · cases h

/-- A value, its sign and the flag before it belong together. -/
theorem RefusedAt.value {token value : Token} {after : List Token} {optional : Bool}
    (hstart : valueStart tokens = some (optional, value :: after))
    (h : RefusedAt stop (value :: after) error) : RefusedAt stop (token :: tokens) error :=
  (h.suffix (suffix_of_valueStart hstart)).cons token

/-- An expression is refused at one of its tokens or at its end. -/
theorem refusedAt_of_expression {done : List Node} {row : Row}
    (h : expression stop done row tokens = .error error) : RefusedAt stop tokens error := by
  fun_induction expression stop done row tokens with
  | case1 => cases h
  | case2 | case5 | case8 =>
    cases h
    exact refusedAt_of_mem List.mem_cons_self rfl
  | case3 _ _ _ _ _ _ _ _ hgroup _ hinner ihinner =>
    cases h
    exact ((ihinner hinner).group hgroup).cons _
  | case4 _ _ _ _ _ _ _ _ hgroup _ _ _ ihrest =>
    exact ((ihrest h).suffix (suffix_of_takeGroup hgroup)).cons _
  | case6 _ _ _ _ _ _ ih => exact (ih h).cons _
  | case7 _ _ _ _ _ _ _ ih => exact (ih h).cons _
  | case9 _ _ _ _ _ _ _ _ ih => exact (ih h).cons _
  | case10 =>
    cases h
    exact .inl rfl
  | case11 _ _ _ _ _ _ _ _ _ _ hstart | case12 _ _ _ _ _ _ _ _ _ _ hstart
  | case13 _ _ _ _ _ _ _ _ _ _ hstart | case14 _ _ _ _ _ _ _ _ _ _ hstart =>
    cases h
    exact .value hstart (refusedAt_of_mem List.mem_cons_self rfl)
  | case15 _ _ _ _ _ _ _ _ _ _ hstart _ _ _ hgroup _ hinner ihinner =>
    cases h
    exact .value hstart (((ihinner hinner).group hgroup).cons _)
  | case16 _ _ _ _ _ _ _ _ _ _ hstart _ _ _ hgroup _ _ _ hend =>
    cases h
    exact .value hstart (((refusedAt_of_valueEnd hend).suffix (suffix_of_takeGroup hgroup)).cons _)
  | case17 _ _ _ _ _ _ _ _ _ _ hstart _ _ _ hgroup _ _ _ hend _ ihrest =>
    exact .value hstart ((((ihrest h).suffix (suffix_of_valueEnd hend)).suffix
      (suffix_of_takeGroup hgroup)).cons _)
  | case18 _ _ _ _ _ _ _ _ _ _ hstart _ hend =>
    cases h
    exact .value hstart ((refusedAt_of_valueEnd hend).cons _)
  | case19 _ _ _ _ _ _ _ _ _ _ hstart _ hend _ _ _ _ ih =>
    exact .value hstart (((ih h).suffix (suffix_of_valueEnd hend)).cons _)
  | case20 _ _ _ _ _ _ _ _ _ _ ih => exact (ih h).cons _

end Refusals

/-- A usage that does not compile is refused inside it or at its end. -/
theorem position_le_of_parse {usage : Text} {error : UsageError}
    (h : parse usage = .error error) : error.position ≤ usage.length := by
  unfold parse at h
  split at h
  · rename_i failure hfailed
    cases h
    simpa using position_le_of_tokensFrom hfailed
  · rename_i found hfound
    rcases refusedAt_of_expression h with hstop | ⟨token, htoken, heq⟩
    · exact hstop.le
    · rw [heq]
      simpa using start_le_of_tokensFrom hfound token htoken

/-! ## §5 Usages -/

/-- The text is a usage: it can be cut into tokens, and they are an expression. -/
def IsUsage (text : Text) : Prop :=
  ∃ found, tokens text = .ok found ∧ Sentence .expression (found.map Token.symbol)

theorem exists_parse_iff {text : Text} : (∃ tree, parse text = .ok tree) ↔ IsUsage text := by
  constructor
  · rintro ⟨tree, hparse⟩
    obtain ⟨found, hfound, hbuilds⟩ := parse_eq_ok_iff.mp hparse
    exact ⟨found, hfound, exists_builds_iff.mp ⟨tree, hbuilds⟩⟩
  · rintro ⟨found, hfound, hsentence⟩
    obtain ⟨tree, hbuilds⟩ := exists_builds_iff.mpr hsentence
    exact ⟨tree, parse_eq_ok_iff.mpr ⟨found, hfound, hbuilds⟩⟩

/-- **Which texts compile.** With ambiguous sequences turned into choices or not, a text compiles
just if it is a usage, and the choices can be made then. Any other text is refused for the same
reason either way, at an offset inside it or at its end. -/
theorem compile_eq_ok_iff_isUsage (text : Text) :
    (∀ committing, (∃ tree, compile text committing = .ok tree) ↔ IsUsage text) ∧
      (IsUsage text → ∃ tree committed, compile text false = .ok tree ∧
        tree.commit? = some committed ∧ compile text true = .ok committed) ∧
      (¬ IsUsage text → ∃ error : UsageError,
        (∀ committing, compile text committing = .error error) ∧
          0 ≤ (error.diagnostic text).position ∧
          (error.diagnostic text).position ≤ text.length) := by
  refine ⟨fun committing => ?_, fun husage => ?_, fun hnot => ?_⟩
  · rw [← exists_parse_iff]
    cases hparse : parse text with
    | error error => simp [compile, hparse, Except.map]
    | ok tree => simp [compile, hparse, Except.map]
  · obtain ⟨tree, hparse⟩ := exists_parse_iff.mpr husage
    refine ⟨tree, tree.commit, by rw [compile, hparse]; rfl, ?_, by rw [compile, hparse]; rfl⟩
    rw [Node.commit?, if_pos (regular_of_parse hparse).isSettled]
  · cases hparse : parse text with
    | ok tree => exact absurd (exists_parse_iff.mp ⟨tree, hparse⟩) hnot
    | error error =>
      have hposition := position_le_of_parse hparse
      exact ⟨error, fun committing => by rw [compile, hparse]; rfl, Int.natCast_nonneg _,
        Int.ofNat_le.mpr hposition⟩

/-- A flag with a sign of a value needs the value. -/
theorem compile_eq_ok_iff_isUsage_value :
    IsUsage "--k[=(a|<b>)]... |c".toList ∧ ¬ IsUsage "c --k=".toList ∧
      ∃ error : UsageError, (∀ committing, compile "c --k=".toList committing = .error error) ∧
        (error.diagnostic "c --k=".toList).position ≤ 6 := by
  have husage : IsUsage "--k[=(a|<b>)]... |c".toList :=
    ((compile_eq_ok_iff_isUsage _).1 false).mp ⟨.choice {} [.setting ⟨false, true⟩ ['k']
      (.choice ⟨true, false⟩ [.literal {} ['a'], .parameter {} ['b']]), .literal {} ['c']],
      Match.eq_ok_of_toOption (by decide +kernel)⟩
  have hnot : ¬ IsUsage "c --k=".toList := by
    intro h
    obtain ⟨tree, hcompile⟩ := ((compile_eq_ok_iff_isUsage _).1 false).mpr h
    have hnone : (compile "c --k=".toList false).toOption = none := by decide +kernel
    rw [hcompile] at hnone
    cases hnone
  obtain ⟨error, hrefused, -, hposition⟩ := (compile_eq_ok_iff_isUsage _).2.2 hnot
  exact ⟨husage, hnot, error, hrefused, hposition⟩

end Usage

end Synopsis
