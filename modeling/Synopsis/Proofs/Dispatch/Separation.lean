/-
Synopsis.Proofs.Dispatch.Separation — which arguments keep together on a joined line.

A flag keeps its key as it is, so a blank in the key ends the flag early. What stands
behind the blank is read as an element of its own, or runs into the next argument. An
argument is whole if there is nothing but blanks behind the first blank of its key
(`IsWhole`).

If a joined line can be read, its elements begin where its arguments begin just if all
arguments are whole (`places_of_read_joinArguments`), and then no flag adds a word or
another flag. This is said of one argument before an arbitrary rest of the line
(`takeElement_argument`) and then, by induction, of all of them
(`keepApart_joinArguments`).
-/
import Synopsis.Proofs.Dispatch.Joining
import Synopsis.Proofs.Line.Places
import Synopsis.Proofs.Match.Soundness
import Mathlib.Data.List.Forall2

namespace Synopsis

open Line (Cursor Element Ends Reads Word)

namespace Dispatch

/-! ## §1 Arguments that keep together -/

/-- The key of a flag as it is read from a line: up to the first blank. -/
def readKey (argument : Text) : Text := (argumentKey argument).takeWhile (!isBlank ·)

def keyRest (argument : Text) : Text := (argumentKey argument).dropWhile (!isBlank ·)

/-- A flag ends early on a line, since its key has a blank. -/
def isCut (argument : Text) : Bool := isFlagArgument argument && !(keyRest argument).isEmpty

/-- The argument keeps together on a line: if it is a flag that ends early, there are only blanks
behind its end, and no value. -/
def IsWhole (argument : Text) : Prop :=
  isCut argument = true →
    argumentValue? argument = none ∧ ∀ c ∈ keyRest argument, isBlank c = true

instance (argument : Text) : Decidable (IsWhole argument) :=
  decidable_of_iff (isCut argument = true →
    argumentValue? argument = none ∧ (keyRest argument).all isBlank = true) (by simp [IsWhole])

/-- What is left of an argument on a line behind the first element that is read of it. -/
def leftover (argument : Text) : Text :=
  if isCut argument then keyRest argument ++ valuePart (argumentValue? argument) else []

def trimmed (argument : Text) : Text :=
  if isCut argument then '-' :: '-' :: readKey argument else argument

/-- The element is what the argument stands for without those blanks, and a flag only if the
argument is one. -/
def StandsTrimmed (argument : Text) (element : Element) : Prop :=
  isFlagArgument (trimmed argument) = isFlagArgument argument ∧ Stands (trimmed argument) element

theorem readKey_append_keyRest (argument : Text) :
    readKey argument ++ keyRest argument = argumentKey argument :=
  List.takeWhile_append_dropWhile

theorem isBlank_of_mem_readKey {argument : Text} {c : Char} (h : c ∈ readKey argument) :
    isBlank c = false := by
  simpa using List.mem_takeWhile_imp h

/-- The rest of a key begins with the blank that ends what is read of it. -/
theorem ends_keyRest {argument : Text} (h : keyRest argument ≠ []) (tail : Text) :
    Ends (keyRest argument ++ tail) := by
  obtain ⟨c, rest, hcons⟩ := List.exists_cons_of_ne_nil h
  have hhead := List.head?_dropWhile_not (!isBlank ·) (argumentKey argument)
  rw [show (argumentKey argument).dropWhile (!isBlank ·) = c :: rest from hcons] at hhead
  rw [hcons]
  rintro d ⟨⟩
  simpa using hhead

theorem isKeyChar_of_mem_readKey {argument : Text} {c : Char} (h : c ∈ readKey argument) :
    Line.isKeyChar c = true := by
  have hkey : c ∈ argumentKey argument := by
    rw [← readKey_append_keyRest]
    exact List.mem_append_left _ h
  have hne : c ≠ '=' := by simpa using List.mem_takeWhile_imp hkey
  simp [Line.isKeyChar, isBlank_of_mem_readKey h, hne]

theorem isCut_iff {argument : Text} :
    isCut argument = true ↔ isFlagArgument argument = true ∧ keyRest argument ≠ [] := by
  simp [isCut]

/-- An argument is whole just if nothing is left of it but blanks. -/
theorem isWhole_iff {argument : Text} :
    IsWhole argument ↔ ∀ c ∈ leftover argument, isBlank c = true := by
  unfold IsWhole leftover
  by_cases hcut : isCut argument = true
  · rw [if_pos hcut]
    constructor
    · intro h
      obtain ⟨hvalue, hblank⟩ := h hcut
      simpa [hvalue, valuePart] using hblank
    · intro h _
      refine ⟨?_, fun c hc => h c (List.mem_append_left _ hc)⟩
      cases hvalue : argumentValue? argument with
      | none => rfl
      | some value => exact absurd (h '=' (by simp [hvalue, valuePart])) (by decide)
  · rw [if_neg hcut]
    exact ⟨fun _ c hc => absurd hc List.not_mem_nil, fun _ h => absurd h hcut⟩

/-- A flag that ends early is one with the key that is read, if there is any. -/
theorem flag_trimmed {argument : Text} (hcut : isCut argument = true)
    (hkey : readKey argument ≠ []) :
    isFlagArgument (trimmed argument) = true ∧ argumentKey (trimmed argument) = readKey argument ∧
      argumentValue? (trimmed argument) = none := by
  have hchars : ∀ c ∈ readKey argument, decide (c ≠ '=') = true := by
    intro c hc
    have hchar := isKeyChar_of_mem_readKey hc
    simp [Line.isKeyChar] at hchar
    simpa using hchar.2
  obtain ⟨c, key, hcons⟩ := List.exists_cons_of_ne_nil hkey
  rw [trimmed, if_pos hcut]
  refine ⟨?_, ?_, ?_⟩
  · simp [isFlagArgument, startsWithHyphens, hcons]
  · simpa [argumentKey, List.takeWhile_eq_self_iff] using hchars
  · have hdrop : (readKey argument).dropWhile (· ≠ '=') = [] := by
      simpa [List.dropWhile_eq_nil_iff] using hchars
    rw [argumentValue?, List.drop_succ_cons, List.drop_succ_cons, List.drop_zero, hdrop]
    rfl

section Arguments

variable {source : Text} {cursor : Cursor}

/-- Two hyphens without a key cannot be read. -/
theorem takeFlag_of_no_key {rest : Text} (h : cursor.Inside source)
    (hrest : rest.takeWhile Line.isKeyChar = []) :
    Line.takeFlag (.whole source) cursor rest =
      .error (.malformed (.missingKey cursor.position)) := by
  unfold Line.takeFlag
  simp only [hrest]
  rw [if_neg (by simp [Cursor.isStuck, Cursor.move, h.excess_eq])]
  rfl

/-- An argument that is a flag is read as one. -/
theorem takeElement_flag {argument tail rest : Text} {c : Char} (h : cursor.Inside source)
    (hflag : isFlagArgument argument = true) (heq : c :: rest = quoteArgument argument ++ tail) :
    Line.takeElement (.whole source) cursor c rest =
      Line.takeFlag (.whole source) cursor
        (argumentKey argument ++ (valuePart (argumentValue? argument) ++ tail)) := by
  rw [quoteArgument_flag hflag, List.cons_append, List.cons_append, List.append_assoc] at heq
  obtain ⟨rfl, rfl⟩ := List.cons.inj heq
  exact takeElement_hyphens h _

/-- A flag that can be read has a key before the first blank. -/
theorem readKey_ne_nil {argument tail : Text} {result : Element × Cursor} (h : cursor.Inside source)
    (htail : Ends tail)
    (htaken : Line.takeFlag (.whole source) cursor
      (argumentKey argument ++ (valuePart (argumentValue? argument) ++ tail)) = .ok result) :
    readKey argument ≠ [] := by
  intro hnone
  -- a blank, an `=` or the end of the line comes first, none of which belongs to a key
  have hends : ∀ {text : Text}, Ends text → text.takeWhile Line.isKeyChar = [] := by
    intro text htext
    cases text with
    | nil => rfl
    | cons c text => simp [Line.isKeyChar, htext c rfl]
  have hnoKey : (argumentKey argument ++ (valuePart (argumentValue? argument) ++ tail)).takeWhile
      Line.isKeyChar = [] := by
    rw [← readKey_append_keyRest, hnone, List.nil_append]
    by_cases hrest : keyRest argument = []
    · rw [hrest, List.nil_append]
      cases argumentValue? argument with
      | none => exact hends htail
      | some value => rfl
    · exact hends (ends_keyRest hrest _)
  rw [takeFlag_of_no_key h hnoKey] at htaken
  cases htaken

/-- Of an argument one element is read, and what is left of it stands before the rest of the line,
whatever that is. -/
theorem takeElement_argument {argument tail rest : Text} {next : Cursor} {c : Char}
    {element : Element} (h : cursor.Inside source) (hrest : cursor.rest = c :: rest)
    (heq : c :: rest = quoteArgument argument ++ tail) (htail : Ends tail)
    (htaken : Line.takeElement (.whole source) cursor c rest = .ok (element, next)) :
    next.rest = leftover argument ++ tail ∧
      (IsWhole argument → StandsTrimmed argument element) := by
  have hread (hflag : isFlagArgument argument = true) :=
    (takeElement_flag h hflag heq).symm.trans htaken
  by_cases hcut : isCut argument = true
  · obtain ⟨hflag, hne⟩ := isCut_iff.mp hcut
    have hkey := readKey_ne_nil h htail (hread hflag)
    obtain ⟨behind, hbare, hbehind⟩ := takeFlag_bare h hkey
      (fun c hc => isKeyChar_of_mem_readKey hc)
      (ends_keyRest hne (valuePart (argumentValue? argument) ++ tail))
    rw [← List.append_assoc, readKey_append_keyRest, hread hflag] at hbare
    cases hbare
    obtain ⟨hflag', hkey', hvalue'⟩ := flag_trimmed hcut hkey
    refine ⟨?_, fun _ => ⟨hflag'.trans hflag.symm, ?_⟩⟩
    · rw [hbehind, leftover, if_pos hcut, List.append_assoc]
    · rw [Stands, if_pos hflag', hkey', hvalue']
  · have hhas (hflag : isFlagArgument argument = true) : HasKey argument := by
      have hnone : keyRest argument = [] := by
        by_contra hne
        exact hcut (isCut_iff.mpr ⟨hflag, hne⟩)
      have hself : argumentKey argument = readKey argument := by
        rw [← readKey_append_keyRest, hnone, List.append_nil]
      exact ⟨hself ▸ readKey_ne_nil h htail (hread hflag),
        fun c hc => isBlank_of_mem_readKey (hself ▸ hc)⟩
    obtain ⟨-, found, behind, hfound, hstands, hbehind⟩ :=
      takeElement_quoteArgument hhas h hrest heq htail
    cases htaken.symm.trans hfound
    rw [leftover, if_neg hcut, StandsTrimmed, trimmed, if_neg hcut]
    exact ⟨hbehind, fun _ => ⟨rfl, hstands⟩⟩

end Arguments

/-! ## §2 Whole lines -/

/-- The offsets at which the arguments begin on their line, if the first begins at `position`. -/
def argumentOffsets (position : Int) : List Text → List Int
  | [] => []
  | argument :: argv =>
    position :: argumentOffsets (position + (quoteArgument argument).length + 1) argv

/-- Behind an argument that is whole nothing is read, or it is read from the next one on. -/
theorem reads_behind {w : Window} {next : Cursor} {argument tail : Text} {argv : List Text}
    {others : List (Int × Element)} (hnext : next.rest = leftover argument ++ tail)
    (hafter : (argv = [] ∧ tail = []) ∨ tail = ' ' :: joinArguments argv)
    (hblanks : ∀ c ∈ leftover argument, isBlank c = true) (hothers : Reads w next others) :
    (argv = [] ∧ others = []) ∨
      next.rest = leftover argument ++ ' ' :: joinArguments argv ∧
        Reads w (next.move ((leftover argument).length + 1) (joinArguments argv)) others := by
  rcases hafter with ⟨rfl, rfl⟩ | rfl
  · exact .inl ⟨rfl, (hothers.skip hnext hblanks).eq_nil rfl⟩
  · have hspace : next.rest = (leftover argument ++ [' ']) ++ joinArguments argv := by
      rw [hnext, List.append_assoc, List.singleton_append]
    have hskipped := hothers.skip hspace fun c hc => by
      rcases List.mem_append.mp hc with hc | hc
      · exact hblanks c hc
      · rw [List.mem_singleton.mp hc]
        decide
    rw [List.length_append, List.length_singleton] at hskipped
    exact .inr ⟨hnext, hskipped⟩

/-- Behind an argument that is not whole something is read before the next one begins. -/
theorem ne_argumentOffsets {w : Window} {next : Cursor} {argument tail : Text} {argv : List Text}
    {others : List (Int × Element)} {stop : Int} (hnext : next.rest = leftover argument ++ tail)
    (hwhole : ¬ IsWhole argument) (hothers : Reads w next others)
    (hstop : next.position + (leftover argument).length = stop) :
    others.map Prod.fst ≠ argumentOffsets (stop + 1) argv := by
  intro hsame
  obtain ⟨offset, hfirst, hbefore⟩ := hothers.begins hnext (by simpa [isWhole_iff] using hwhole)
  rw [hsame] at hfirst
  cases argv with
  | nil => cases hfirst
  | cons other argv =>
    obtain rfl : stop + 1 = offset := by simpa [argumentOffsets] using hfirst
    omega

/-- The elements begin where the arguments do just if all arguments are whole, and then there is
one element for each. -/
def KeepApart (position : Int) (argv : List Text) (placed : List (Int × Element)) : Prop :=
  (placed.map Prod.fst = argumentOffsets position argv ↔ ∀ argument ∈ argv, IsWhole argument) ∧
    ((∀ argument ∈ argv, IsWhole argument) →
      List.Forall₂ StandsTrimmed argv (placed.map Prod.snd))

theorem keepApart_nil (position : Int) : KeepApart position [] [] :=
  ⟨by simp [argumentOffsets], fun _ => .nil⟩

/-- The elements of a line of joined arguments keep apart. The induction is on the arguments that
are left. -/
theorem keepApart_joinArguments {source : Text} {argv : List Text} {cursor : Cursor}
    {placed : List (Int × Element)} (h : cursor.Inside source)
    (hrest : cursor.rest = joinArguments argv) (hreads : Reads (.whole source) cursor placed) :
    KeepApart cursor.position argv placed := by
  induction argv generalizing cursor placed with
  | nil =>
    obtain rfl := hreads.eq_nil hrest
    exact keepApart_nil _
  | cons argument argv ih =>
    obtain ⟨tail, hjoin, htail, hafter⟩ := joinArguments_cons argument argv
    obtain ⟨c, quoted, hquote, hfilled⟩ := exists_quoteArgument_eq_cons argument
    have hcons : cursor.rest = c :: (quoted ++ tail) := by
      rw [hrest, hjoin, hquote, List.cons_append]
    obtain ⟨element, next, others, htaken, hothers, rfl⟩ := hreads.cases_of_filled hcons hfilled
    obtain ⟨hnext, hstands⟩ := takeElement_argument h hcons
      (by rw [hquote, List.cons_append]) htail htaken
    have hinside := (Line.inside_of_takeElement h hcons htaken).2
    have hstop : next.position + (leftover argument).length =
        cursor.position + (quoteArgument argument).length := by
      have hadd := h.position_add
      have hadd' := hinside.position_add
      rw [hrest, hjoin, List.length_append] at hadd
      rw [hnext, List.length_append] at hadd'
      omega
    by_cases hwhole : IsWhole argument
    · have hlater : KeepApart (cursor.position + (quoteArgument argument).length + 1) argv
          others := by
        rcases reads_behind hnext hafter (isWhole_iff.mp hwhole) hothers with ⟨rfl, rfl⟩ |
          ⟨hspace, hlater⟩
        · exact keepApart_nil _
        · have hbegin : cursor.position + (quoteArgument argument).length + 1 =
              (next.move ((leftover argument).length + 1) (joinArguments argv)).position := by
            simp only [Cursor.move, Int.natCast_add, Int.natCast_one]
            omega
          rw [hbegin]
          refine ih (hinside.move ?_) rfl hlater
          rw [hspace, List.length_append, List.length_cons]
          omega
      refine ⟨by simp [argumentOffsets, hwhole, hlater.1], fun hall => ?_⟩
      exact .cons (hstands hwhole) (hlater.2 fun other hother => hall other (by simp [hother]))
    · have hne : others.map Prod.fst ≠ argumentOffsets _ argv :=
        ne_argumentOffsets hnext hwhole hothers hstop
      exact ⟨by simp [argumentOffsets, hwhole, hne],
        fun hall => absurd (hall argument List.mem_cons_self) hwhole⟩

/-- Without the blanks at the end of their keys the same arguments are words. -/
theorem filter_map_trimmed {argv : List Text} {found : List Element}
    (h : List.Forall₂ StandsTrimmed argv found) :
    (argv.map trimmed).filter (!isFlagArgument ·) = argv.filter (!isFlagArgument ·) := by
  induction h with
  | nil => rfl
  | @cons argument element argv found hstands _ ih =>
    by_cases hflag : isFlagArgument argument = true
    · rw [List.map_cons, List.filter_cons_of_neg (by simp [hstands.1, hflag]), ih,
        List.filter_cons_of_neg (by simp [hflag])]
    · have hself : trimmed argument = argument :=
        if_neg fun hcut => hflag (isCut_iff.mp hcut).1
      rw [List.map_cons, hself, List.filter_cons_of_pos (by simpa using hflag), ih,
        List.filter_cons_of_pos (by simpa using hflag)]

/-- **Where joined arguments keep apart.** If a line of joined arguments can be read, its elements
begin just where its arguments begin if and only if nothing but blanks stands behind the first
blank in the key of any flag. Then each argument is one element: the words of the line are the
arguments that are no flags, in order, and its table is made by the flags, one for each. -/
theorem places_of_read_joinArguments {argv : List Text} {line : Line.Parsed}
    (h : Line.read (.whole (joinArguments argv)) = .ok line) :
    ∃ placed, Reads (.whole (joinArguments argv)) (.ofWindow (.whole (joinArguments argv))) placed ∧
      line.words = Line.wordsOf (placed.map Prod.snd) ∧
      line.flags = .ofList (Line.flagsOf (placed.map Prod.snd)) ∧
      (placed.map Prod.fst = argumentOffsets 0 argv ↔ ∀ argument ∈ argv, IsWhole argument) ∧
      ((∀ argument ∈ argv, IsWhole argument) →
        List.Forall₂ Stands (argv.map trimmed) (placed.map Prod.snd) ∧
        line.texts? = some (argv.filter (!isFlagArgument ·)) ∧
        line.flags = .ofList (flagsOfArguments (argv.map trimmed))) := by
  have hrest : (Cursor.ofWindow (.whole (joinArguments argv))).rest = joinArguments argv :=
    Window.chars_whole _
  unfold Line.read at h
  generalize hfound : Line.elements (.whole (joinArguments argv))
    (.ofWindow (.whole (joinArguments argv))) = found at h
  cases found with
  | error failure => cases h
  | ok found =>
    cases h
    obtain ⟨placed, hreads, rfl⟩ := Line.reads_of_elements hfound
    obtain ⟨hplaces, hone⟩ := keepApart_joinArguments (Line.inside_ofWindow _) hrest hreads
    refine ⟨placed, hreads, rfl, rfl, hplaces, fun hwhole => ?_⟩
    have htrimmed := hone hwhole
    have hstands : List.Forall₂ Stands (argv.map trimmed) (placed.map Prod.snd) :=
      List.forall₂_map_left_iff.mpr (htrimmed.imp fun _ _ hstands => hstands.2)
    refine ⟨hstands, ?_, congrArg _ (flagsOf_of_stands hstands)⟩
    exact (wordsOf_of_stands hstands).trans (congrArg some (filter_map_trimmed htrimmed))

/-- A key that ends in a blank, two words, one of them only hyphens, and a value with a blank. -/
theorem places_of_read_joinArguments_blank_at_end :
    ∃ line, Line.read (.whole (joinArguments
        ["--a ".toList, "b c".toList, "--".toList, "--k=v w".toList])) = .ok line ∧
      line.texts? = some ["b c".toList, "--".toList] ∧
      line.flags = [("a".toList, none), ("k".toList, some "v w".toList)] := by
  have hsome : (Line.read (.whole (joinArguments
      ["--a ".toList, "b c".toList, "--".toList, "--k=v w".toList]))).toOption.isSome = true := by
    decide +kernel
  obtain ⟨line, hline⟩ := Option.isSome_iff_exists.mp hsome
  have hread := Match.eq_ok_of_toOption hline
  obtain ⟨placed, -, -, -, -, hone⟩ := places_of_read_joinArguments hread
  obtain ⟨-, htexts, hflags⟩ := hone (by decide)
  exact ⟨line, hread, htexts.trans (by decide), hflags.trans (by decide)⟩

/-- A flag with a blank in its key adds a word. -/
theorem not_words_of_read_joinArguments :
    ¬ ∀ (argv : List Text) (line : Line.Parsed),
      Line.read (.whole (joinArguments argv)) = .ok line →
        line.texts? = some (argv.filter (!isFlagArgument ·)) := by
  intro hwords
  have hsome : ((Line.read (.whole (joinArguments ["--a b".toList]))).toOption.map
      Line.Parsed.texts?) = some (some ["b".toList]) := by
    decide +kernel
  obtain ⟨line, hline, htexts⟩ := Option.map_eq_some_iff.mp hsome
  have hnone := hwords _ line (Match.eq_ok_of_toOption hline)
  rw [htexts] at hnone
  exact absurd hnone (by decide)

end Dispatch

end Synopsis
