/-
Synopsis.Proofs.Dispatch.NormalForm — every line that can be read has a normal form.

The normal form of a line has its words first, each quoted where it has to be, and then
the entries of its table of flags. However the line was written, with whatever quotes and
escapes, and wherever its flags stood, its normal form is read as the same words and the
same table (`read_normalForm`): every word can be quoted, and a key that was read has
nothing in it that would end it (`isKey_of_read_whole`). So a line and its normal form
fit the same trees, and bind the same (`parse_normalForm`).
-/
import Synopsis.Proofs.Dispatch.Writing
import Synopsis.Proofs.Match.Agreement
import Synopsis.Proofs.Match.Totality

namespace Synopsis

namespace Dispatch

/-! ## §1 Normal forms -/

/-- A line with these words and flags: the words, quoted where they have to be, and then the flags
in the order of their table. -/
def normalForm (words : List Text) (flags : FlagTable) : Text :=
  Text.spaced
    (words.map quote ++ flags.map fun (key, value) => '-' :: '-' :: (key ++ valuePart value))

def normalItems (words : List Text) (flags : FlagTable) : List Item :=
  words.map Item.word ++ flags.map fun (key, value) => Item.flag key value

theorem normalForm_eq (words : List Text) (flags : FlagTable) :
    normalForm words flags = Text.spaced ((normalItems words flags).map Item.write) := by
  rw [normalForm, normalItems, List.map_append, List.map_map, List.map_map]
  rfl

theorem texts_normalItems (words : List Text) (flags : FlagTable) :
    (normalItems words flags).filterMap Item.text? = words := by
  simp [normalItems, Item.text?, Function.comp_def]

theorem flags_normalItems (words : List Text) (flags : FlagTable) :
    (normalItems words flags).filterMap Item.flag? = flags := by
  simp [normalItems, Item.flag?, Function.comp_def]

/-- Words can always be written, and so can flags with keys that are read as keys. -/
theorem writable_normalItems (words : List Text) {flags : FlagTable}
    (hkeys : ∀ key ∈ flags.keys, Line.IsKey key) :
    ∀ item ∈ normalItems words flags, item.Writable := by
  intro item hitem
  rcases List.mem_append.mp hitem with hword | hflag
  · obtain ⟨word, -, rfl⟩ := List.mem_map.mp hword
    trivial
  · obtain ⟨⟨key, value⟩, hmem, rfl⟩ := List.mem_map.mp hflag
    exact hkeys key (List.mem_map_of_mem hmem)

/-- A normal form is read as the words and the table that it was written for. -/
theorem read_normalForm (words : List Text) {flags : FlagTable} (hnodup : flags.keys.Nodup)
    (hkeys : ∀ key ∈ flags.keys, Line.IsKey key) :
    ∃ line, Line.read (.whole (normalForm words flags)) = .ok line ∧
      line.texts? = some words ∧ line.flags = flags := by
  obtain ⟨line, hread, htexts, hflags⟩ := read_spaced (writable_normalItems words hkeys)
  rw [← normalForm_eq] at hread
  rw [texts_normalItems] at htexts
  rw [flags_normalItems, FlagTable.ofList_of_nodup hnodup] at hflags
  exact ⟨line, hread, htexts, hflags⟩

/-! ## §2 Lines and their normal forms -/

/-- **Normal form.** A line that can be read has words and a table of flags, and its normal form is
read as just these. So no tree tells the line from its normal form; and a complete tree fits both,
with the same bindings, or neither. -/
theorem parse_normalForm {source : Text} {line : Line.Parsed}
    (hread : Line.read (.whole source) = .ok line) :
    ∃ words line', line.texts? = some words ∧
      Line.read (.whole (normalForm words line.flags)) = .ok line' ∧
      line'.texts? = some words ∧ line'.flags = line.flags ∧
      ∀ tree, Match.parse tree (normalForm words line.flags) = Match.parse tree source ∧
        (tree.isComplete = true → ∃ found, Match.parse tree source = .ok found) := by
  obtain ⟨words, htexts⟩ := Line.texts?_of_read_whole hread
  obtain ⟨line', hread', htexts', hflags⟩ :=
    read_normalForm words (Line.nodup_keys_of_read hread) (Line.isKey_of_read_whole hread)
  refine ⟨words, line', htexts, hread', htexts', hflags, fun tree => ⟨?_, fun hcomplete => ?_⟩⟩
  · have hagrees := Match.agrees_of_texts htexts' htexts fun key => by rw [hflags]
    exact Match.parse_eq_of_agrees hagrees hflags hread' hread tree
  · exact Match.exists_parse_eq_ok hcomplete hread

/-- A line with quotes of both kinds, escapes, and a flag right behind a word. -/
theorem parse_normalForm_adjacent :
    let source := "'say \"hi\"'--x='it\\'s' e\\ f --y".toList
    let normal := "\"say \\\"hi\\\"\" \"e f\" --x=\"it's\" --y".toList
    ∃ line, Line.read (.whole source) = .ok line ∧
      line.texts? = some ["say \"hi\"".toList, "e f".toList] ∧
      line.flags = [("x".toList, some "it's".toList), ("y".toList, none)] ∧
      ∀ tree, Match.parse tree normal = Match.parse tree source := by
  intro source normal
  have hfound : ((Line.read (.whole source)).toOption.map fun line => (line.texts?, line.flags)) =
      some (some ["say \"hi\"".toList, "e f".toList],
        [("x".toList, some "it's".toList), ("y".toList, none)]) := by
    decide +kernel
  obtain ⟨line, hline, hparts⟩ := Option.map_eq_some_iff.mp hfound
  obtain ⟨htexts, hflags⟩ := Prod.mk.inj hparts
  have hread := Match.eq_ok_of_toOption hline
  obtain ⟨words, -, hwords, -, -, -, hsame⟩ := parse_normalForm hread
  obtain rfl := Option.some.inj (htexts.symm.trans hwords)
  have hnormal : normalForm ["say \"hi\"".toList, "e f".toList] line.flags = normal := by
    rw [hflags]
    decide +kernel
  exact ⟨line, hread, htexts, hflags, fun tree => hnormal ▸ (hsame tree).1⟩

end Dispatch

end Synopsis
