/-
Synopsis.Proofs.Match.Derivation — what a tree says of a line.

A tree is read as a grammar over the words and the flags of a line. A derivation
says of each word what it is taken for (`Reading`) and which flags are used on the
way. A literal derives one word equal to it, a parameter any one word, and a flag no
word; a sequence derives what its children derive one after the other, a choice what
one alternative derives. A repeating positional node occurs once or more often, and
an optional one may be absent, a flag only if it was not given.

`DerivesLine` says of a whole line that it is derived, and what it binds: each word
is captured once, in order, and the table of flags follows.
-/
import Synopsis.Match.Bindings
import Synopsis.Match.Node

namespace Synopsis

namespace Match

open Line (Parsed)

/-! ## §1 Readings -/

/-- What a word is taken for. -/
inductive Reading where
  /-- The text of a literal. -/
  | keyword (name : Text)
  /-- A value of the parameter with that name. -/
  | value (key word : Text)
deriving DecidableEq

namespace Reading

def word : Reading → Text
  | .keyword name => name
  | .value _ word => word

/-- What is captured of the word with the given number. -/
def capture (token : Nat) : Reading → Capture
  | .keyword name => (unnamedKey token, some name)
  | .value key word => (key, some word)

def captures (token : Nat) : List Reading → List Capture
  | [] => []
  | reading :: readings => reading.capture token :: captures (token + 1) readings

theorem captures_append (token : Nat) (readings readings' : List Reading) :
    captures token (readings ++ readings') =
      captures token readings ++ captures (token + readings.length) readings' := by
  induction readings generalizing token with
  | nil => rfl
  | cons reading readings ih =>
    rw [List.cons_append, captures, ih, captures, List.cons_append, List.length_cons]
    rw [show token + 1 + readings.length = token + (readings.length + 1) by omega]

end Reading

/-! ## §2 Derivations -/

def flagKey? : Node → Option Text
  | .flag _ key | .setting _ key _ => some key
  | _ => none

/-- The node may be absent: it is optional, and no flag that was given. -/
def MayBeAbsent (flags : FlagTable) (node : Node) : Prop :=
  node.optional = true ∧ ∀ key, flagKey? node = some key → flags.get? key = none

mutual

/-- One occurrence of a node derives words with these readings and uses flags with these keys. -/
inductive Occurs (flags : FlagTable) : Node → List Reading → List Text → Prop where
  | literal (occ : Occurrence) (name : Text) : Occurs flags (.literal occ name) [.keyword name] []
  | parameter (occ : Occurrence) (name word : Text) :
    Occurs flags (.parameter occ name) [.value name word] []
  | flag {occ : Occurrence} {key : Text} (hgiven : flags.get? key = some none) :
    Occurs flags (.flag occ key) [] [key]
  | setting {occ : Occurrence} {key : Text} {value : Node} {given : Option Text}
    (hgiven : flags.get? key = some given) (hadmits : value.admitsGiven given = true) :
    Occurs flags (.setting occ key value) [] [key]
  | sequence {occ : Occurrence} {children : List Node} {readings : List Reading}
    {keys : List Text} (hchildren : DerivesAll flags children readings keys) :
    Occurs flags (.sequence occ children) readings keys
  | choice {occ : Occurrence} {alternatives : List Node} {alternative : Node}
    {readings : List Reading} {keys : List Text} (hmem : alternative ∈ alternatives)
    (halternative : Derives flags alternative readings keys) :
    Occurs flags (.choice occ alternatives) readings keys
  | empty (occ : Occurrence) : Occurs flags (.empty occ) [] []

/-- A node with its marks derives words with these readings and uses flags with these keys. -/
inductive Derives (flags : FlagTable) : Node → List Reading → List Text → Prop where
  | once {node : Node} {readings : List Reading} {keys : List Text}
    (hoccurs : Occurs flags node readings keys) : Derives flags node readings keys
  | again {node : Node} {readings readings' : List Reading} {keys keys' : List Text}
    (hrepeating : node.repeating = true) (hpositional : node.positional = true)
    (hoccurs : Occurs flags node readings keys) (hrest : Derives flags node readings' keys') :
    Derives flags node (readings ++ readings') (keys ++ keys')
  | absent {node : Node} (habsent : MayBeAbsent flags node) : Derives flags node [] []

/-- Several nodes derive words one after the other. -/
inductive DerivesAll (flags : FlagTable) : List Node → List Reading → List Text → Prop where
  | nil : DerivesAll flags [] [] []
  | cons {node : Node} {nodes : List Node} {readings readings' : List Reading}
    {keys keys' : List Text} (hnode : Derives flags node readings keys)
    (hnodes : DerivesAll flags nodes readings' keys') :
    DerivesAll flags (node :: nodes) (readings ++ readings') (keys ++ keys')

end

/-- The tree derives the words, using every flag that was given, and these are the bindings. -/
def DerivesLine (tree : Node) (words : List Text) (flags : FlagTable) (bindings : Bindings) :
    Prop :=
  ∃ readings keys,
    Derives flags tree readings keys ∧
    readings.map Reading.word = words ∧
    (∀ key ∈ flags.keys, key ∈ keys) ∧
    bindings.captures = Reading.captures 0 readings ++ flags

/-! ## §3 Walking along a line -/

/-- The words from the given one on have these readings. -/
def Spells (line : Parsed) (token : Nat) : List Reading → Prop
  | [] => True
  | reading :: readings =>
    (∃ word, line.words[token]? = some word ∧ word.text = some reading.word) ∧
      Spells line (token + 1) readings

theorem spells_append {line : Parsed} {token : Nat} {readings readings' : List Reading} :
    Spells line token (readings ++ readings') ↔
      Spells line token readings ∧ Spells line (token + readings.length) readings' := by
  induction readings generalizing token with
  | nil => simp [Spells]
  | cons reading readings ih =>
    rw [List.cons_append, Spells, ih, Spells, and_assoc, List.length_cons]
    rw [show token + 1 + readings.length = token + (readings.length + 1) by omega]

/-- The trail with the captures of some words, from the given one on, and with flags admitted. -/
def Trail.note (trail : Trail) (token : Nat) (readings : List Reading) (keys : List Text) : Trail :=
  ⟨trail.captures ++ Reading.captures token readings, trail.admitted ++ keys⟩

@[simp] theorem Trail.note_nil (trail : Trail) (token : Nat) : trail.note token [] [] = trail := by
  simp [Trail.note, Reading.captures]

theorem Trail.note_note (trail : Trail) (token : Nat) (readings readings' : List Reading)
    (keys keys' : List Text) :
    (trail.note token readings keys).note (token + readings.length) readings' keys' =
      trail.note token (readings ++ readings') (keys ++ keys') := by
  simp [Trail.note, Reading.captures_append]

/-- The words between the two given ones have these readings, and what is recorded of them and of
these flags leads from the one trail to the other. -/
structure Walks (line : Parsed) (token next : Nat) (trail after : Trail)
    (readings : List Reading) (keys : List Text) : Prop where
  next_eq : next = token + readings.length
  spells : Spells line token readings
  trail_eq : after = trail.note token readings keys

theorem Walks.refl (line : Parsed) (token : Nat) (trail : Trail) :
    Walks line token token trail trail [] [] :=
  ⟨rfl, trivial, by simp⟩

theorem Walks.trans {line : Parsed} {token middle next : Nat} {trail trail' after : Trail}
    {readings readings' : List Reading} {keys keys' : List Text}
    (h : Walks line token middle trail trail' readings keys)
    (h' : Walks line middle next trail' after readings' keys') :
    Walks line token next trail after (readings ++ readings') (keys ++ keys') := by
  obtain ⟨rfl, hspells, rfl⟩ := h
  obtain ⟨rfl, hspells', rfl⟩ := h'
  refine ⟨?_, spells_append.mpr ⟨hspells, hspells'⟩, ?_⟩
  · rw [List.length_append]; omega
  · exact Trail.note_note _ _ _ _ _ _

end Match

end Synopsis
