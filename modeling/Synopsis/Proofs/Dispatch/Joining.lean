/-
Synopsis.Proofs.Dispatch.Joining — arguments joined to a line and read from it again.

An argument vector that was joined to a command line is read from it as it was
(`read_joinArguments`): the arguments that are no flags are the words of the line,
whatever characters they have, and the flags fill its table one after the other. Every
argument is an item of the line (`itemOf`), so this is a case of what is known of lines
that are written (`read_spaced`). A flag needs a key without blanks, for a key cannot be
quoted.
-/
import Synopsis.Proofs.Dispatch.Writing
import Synopsis.Proofs.Line.Flags

namespace Synopsis

open Line (Cursor Element Ends Word)

namespace Dispatch

/-! ## §1 Flags among the arguments -/

/-- The key of a flag: what stands between its hyphens and the first `=`. -/
def argumentKey (argument : Text) : Text := (argument.drop 2).takeWhile (· ≠ '=')

/-- The value of a flag: what stands behind the first `=`, if there is one. -/
def argumentValue? (argument : Text) : Option Text :=
  ((argument.drop 2).dropWhile (· ≠ '=')).tail?

def flagsOfArguments (argv : List Text) : List (Text × Option Text) :=
  (argv.filter isFlagArgument).map fun argument => (argumentKey argument, argumentValue? argument)

/-- The argument has a key that can stand on a line: it is not empty and has no blanks. -/
def HasKey (argument : Text) : Prop :=
  argumentKey argument ≠ [] ∧ ∀ c ∈ argumentKey argument, isBlank c = false

instance (argument : Text) : Decidable (HasKey argument) :=
  decidable_of_iff (argumentKey argument ≠ [] ∧ (argumentKey argument).all (!isBlank ·) = true)
    (by simp [HasKey])

theorem isKeyChar_of_hasKey {argument : Text} (h : HasKey argument) :
    ∀ c ∈ argumentKey argument, Line.isKeyChar c = true := by
  intro c hc
  have hne : c ≠ '=' := by simpa using List.mem_takeWhile_imp hc
  simp [Line.isKeyChar, h.2 c hc, hne]

/-- A flag keeps its key, and its value is quoted. -/
theorem quoteArgument_flag {argument : Text} (h : isFlagArgument argument = true) :
    quoteArgument argument =
      '-' :: '-' :: (argumentKey argument ++ valuePart (argumentValue? argument)) := by
  obtain ⟨body, rfl⟩ : ∃ body, argument = '-' :: '-' :: body := by
    unfold isFlagArgument startsWithHyphens at h
    split at h
    · exact ⟨_, rfl⟩
    · cases h
  have hspan := List.takeWhile_append_dropWhile (p := (· ≠ '=')) (l := body)
  have hhead := List.head?_dropWhile_not (· ≠ '=') body
  unfold quoteArgument
  rw [if_pos h]
  simp only [argumentKey, argumentValue?, List.drop_succ_cons, List.drop_zero]
  simp only [List.dropWhile_cons, List.takeWhile_cons, show decide ('-' ≠ '=') = true from rfl,
    if_true]
  cases hdrop : body.dropWhile (· ≠ '=') with
  | nil =>
    rw [hdrop] at hspan
    simp only [List.tail?, valuePart, hspan]
  | cons separator value =>
    rw [hdrop] at hhead
    obtain rfl : separator = '=' := by simpa using hhead
    rfl

/-- The element is what the argument stands for: a word, or a flag with what is given for it. -/
def Stands (argument : Text) (element : Element) : Prop :=
  if isFlagArgument argument then
    element = .flag (argumentKey argument) (argumentValue? argument)
  else ∃ word, element = .word word ∧ word.text = some argument

/-! ## §2 Arguments as items -/

def itemOf (argument : Text) : Item :=
  if isFlagArgument argument then .flag (argumentKey argument) (argumentValue? argument)
  else .word argument

theorem write_itemOf (argument : Text) : (itemOf argument).write = quoteArgument argument := by
  unfold itemOf
  split
  · rename_i hflag
    exact (quoteArgument_flag hflag).symm
  · rename_i hflag
    exact (if_neg hflag).symm

theorem means_itemOf {argument : Text} {element : Element} :
    (itemOf argument).Means element ↔ Stands argument element := by
  unfold itemOf Stands
  split <;> rfl

theorem writable_itemOf {argument : Text}
    (h : isFlagArgument argument = true → HasKey argument) : (itemOf argument).Writable := by
  unfold itemOf
  split
  · rename_i hflag
    exact ⟨(h hflag).1, isKeyChar_of_hasKey (h hflag)⟩
  · trivial

/-- The words among the arguments are those that are no flags. -/
theorem texts_map_itemOf (argv : List Text) :
    (argv.map itemOf).filterMap Item.text? = argv.filter (!isFlagArgument ·) := by
  rw [List.filterMap_map, ← List.filterMap_eq_filter]
  refine List.filterMap_congr fun argument _ => ?_
  by_cases hflag : isFlagArgument argument = true <;>
    simp [itemOf, hflag, Item.text?, Option.guard]

theorem flags_map_itemOf (argv : List Text) :
    (argv.map itemOf).filterMap Item.flag? = flagsOfArguments argv := by
  rw [List.filterMap_map, flagsOfArguments, ← List.filterMap_eq_map, List.filterMap_filter]
  refine List.filterMap_congr fun argument _ => ?_
  by_cases hflag : isFlagArgument argument = true <;> simp [itemOf, hflag, Item.flag?]

/-- An argument is one element of the line, whatever follows it. -/
theorem takeElement_quoteArgument {source argument tail rest : Text} {cursor : Cursor} {c : Char}
    (hkey : isFlagArgument argument = true → HasKey argument) (h : cursor.Inside source)
    (hrest : cursor.rest = c :: rest) (heq : c :: rest = quoteArgument argument ++ tail)
    (htail : Ends tail) :
    isBlank c = false ∧ ∃ element next,
      Line.takeElement (.whole source) cursor c rest = .ok (element, next) ∧
        Stands argument element ∧ next.rest = tail := by
  rw [← write_itemOf] at heq
  simpa only [means_itemOf] using
    Item.takeElement_write (writable_itemOf hkey) h hrest heq htail

/-- An argument does not begin with a blank on its line. -/
theorem exists_quoteArgument_eq_cons (argument : Text) :
    ∃ c rest, quoteArgument argument = c :: rest ∧ isBlank c = false :=
  write_itemOf argument ▸ (itemOf argument).exists_write_eq_cons

/-! ## §3 Whole lines -/

theorem joinArguments_eq (argv : List Text) :
    joinArguments argv = Text.spaced ((argv.map itemOf).map Item.write) := by
  rw [joinArguments, List.map_map]
  exact congrArg _ (List.map_congr_left fun argument _ => (write_itemOf argument).symm)

/-- Behind the first argument the line ends, or a space comes before the others. -/
theorem joinArguments_cons (argument : Text) (argv : List Text) :
    ∃ tail, joinArguments (argument :: argv) = quoteArgument argument ++ tail ∧ Ends tail ∧
      ((argv = [] ∧ tail = []) ∨ tail = ' ' :: joinArguments argv) := by
  obtain ⟨tail, hjoin, htail, hafter⟩ :=
    spaced_cons (quoteArgument argument) (argv.map quoteArgument)
  exact ⟨tail, hjoin, htail, hafter.imp_left (.imp_left List.map_eq_nil_iff.mp)⟩

/-- The words among the elements are the arguments that are no flags. -/
theorem wordsOf_of_stands {argv : List Text} {found : List Element}
    (h : List.Forall₂ Stands argv found) :
    (Line.wordsOf found).mapM Word.text = some (argv.filter (!isFlagArgument ·)) := by
  rw [← texts_map_itemOf]
  exact Item.texts_of_means (List.forall₂_map_left_iff.mpr (h.imp fun _ _ => means_itemOf.mpr))

/-- The flags among the elements are those of the arguments. -/
theorem flagsOf_of_stands {argv : List Text} {found : List Element}
    (h : List.Forall₂ Stands argv found) : Line.flagsOf found = flagsOfArguments argv := by
  rw [← flags_map_itemOf]
  exact Item.flags_of_means (List.forall₂_map_left_iff.mpr (h.imp fun _ _ => means_itemOf.mpr))

/-- A line of joined arguments can be read if its flags have keys without blanks. -/
theorem exists_read_joinArguments {argv : List Text}
    (hkeys : ∀ argument ∈ argv, isFlagArgument argument = true → HasKey argument) :
    ∃ line, Line.read (.whole (joinArguments argv)) = .ok line ∧
      line.texts? = some (argv.filter (!isFlagArgument ·)) ∧
      line.flags = .ofList (flagsOfArguments argv) := by
  rw [joinArguments_eq, ← texts_map_itemOf, ← flags_map_itemOf]
  refine read_spaced fun item hitem => ?_
  obtain ⟨argument, hargument, rfl⟩ := List.mem_map.mp hitem
  exact writable_itemOf (hkeys argument hargument)

/-- **Round trip of arguments.** A line of joined arguments whose flags have keys without blanks
can be read. Its words are the arguments that are no flags, in order, and its table is made by the
flags one after the other: each key at the place where it is first given, with what is given for
it last. -/
theorem read_joinArguments {argv : List Text}
    (hkeys : ∀ argument ∈ argv, isFlagArgument argument = true → HasKey argument) :
    ∃ line, Line.read (.whole (joinArguments argv)) = .ok line ∧
      line.texts? = some (argv.filter (!isFlagArgument ·)) ∧
      line.flags = .ofList (flagsOfArguments argv) ∧
      line.flags.keys = ((flagsOfArguments argv).map Prod.fst).eraseDups ∧
      ∀ key, line.flags.get? key = (flagsOfArguments argv).reverse.lookup key := by
  obtain ⟨line, hread, htexts, hflags⟩ := exists_read_joinArguments hkeys
  refine ⟨line, hread, htexts, hflags, ?_, fun key => ?_⟩
  · rw [hflags, FlagTable.keys_ofList]
  · rw [hflags, FlagTable.get?_ofList]

/-- Words that are empty, two hyphens, or full of quotes, and a flag that is given twice. -/
theorem read_joinArguments_quoted :
    (∀ argument ∈ ["a \"b\\".toList, "--k=x y".toList, [], "--".toList, "--k".toList],
      isFlagArgument argument = true → HasKey argument) ∧
    ∃ line, Line.read (.whole (joinArguments
        ["a \"b\\".toList, "--k=x y".toList, [], "--".toList, "--k".toList])) = .ok line ∧
      line.texts? = some ["a \"b\\".toList, [], "--".toList] ∧
      line.flags = [("k".toList, none)] := by
  have hkeys : ∀ argument ∈ ["a \"b\\".toList, "--k=x y".toList, [], "--".toList, "--k".toList],
      isFlagArgument argument = true → HasKey argument := by
    decide
  obtain ⟨line, hread, htexts, hflags, -⟩ := read_joinArguments hkeys
  refine ⟨hkeys, line, hread, htexts.trans ?_, hflags.trans ?_⟩ <;> decide

end Dispatch

end Synopsis
