/-
Synopsis.Proofs.Dispatch.Liveness — paths that some line leads to.

A path is live if it is not empty and the keywords of some line that the program accepts
begin with it (`IsLive`). The handler that is registered first is selected for some line
just if its path is live (`reaches_iff_isLive`).

Registering a handler does not ask for that: it only asks whether each keyword is a literal
of the usage. A path that is refused for this is not live, unless the usage has reserved
names (`not_isLive_of_unknown`), but a path that is accepted need not be. What the literals
of a line say comes from a derivation, so the order of the literals counts, and where
nothing repeats, a live path goes through the literals of the usage in their order
(`sublist_of_isLive`). The empty path and every path of literals that does not are accepted
and dead.
-/
import Synopsis.Proofs.Dispatch.Keywords
import Synopsis.Proofs.Dispatch.Runs
import Synopsis.Proofs.Usage.Structure

namespace Synopsis

/-! ## §1 What the literals of a derivation say -/

namespace Node

theorem literals_sublist_literalsOfAll {node : Node} {nodes : List Node} (h : node ∈ nodes) :
    node.literals.Sublist (literalsOfAll nodes) := by
  induction nodes with
  | nil => cases h
  | cons other nodes ih =>
    rw [literalsOfAll]
    rcases List.mem_cons.mp h with rfl | h
    · exact List.sublist_append_left _ _
    · exact (ih h).trans (List.sublist_append_right _ _)

def RepeatsNowhere (tree : Node) : Prop := ∀ node ∈ tree.nodes, node.repeating = false

theorem RepeatsNowhere.repeating_eq {node : Node} (h : node.RepeatsNowhere) :
    node.repeating = false :=
  h node (by rw [nodes_eq]; exact List.mem_cons_self)

theorem RepeatsNowhere.of_mem_parts {node part : Node} (h : node.RepeatsNowhere)
    (hpart : part ∈ node.parts) : part.RepeatsNowhere := by
  intro other hother
  refine h other ?_
  rw [nodes_eq]
  exact List.mem_cons_of_mem _ (List.mem_flatMap.mpr ⟨part, hpart, hother⟩)

end Node

namespace Dispatch

open Match (Bindings Reading Occurs Derives DerivesAll)

theorem literalWords_append (readings readings' : List Reading) :
    literalWords (readings ++ readings') = literalWords readings ++ literalWords readings' :=
  List.filterMap_append

section Derivations

variable {flags : FlagTable}

mutual

/-- One occurrence of a node has words of the node's literals only. -/
theorem literalWords_subset_of_occurs : ∀ {node : Node} {readings : List Reading}
    {keys : List Text}, Occurs flags node readings keys → literalWords readings ⊆ node.literals
  | _, _, _, .literal occ name => List.Subset.refl _
  | _, _, _, .parameter occ name word => List.nil_subset _
  | _, _, _, .flag _ => List.nil_subset _
  | _, _, _, .setting _ _ => List.nil_subset _
  | _, _, _, .sequence hchildren => literalWords_subset_of_derivesAll hchildren
  | _, _, _, .choice hmem halternative =>
    List.Subset.trans (literalWords_subset_of_derives halternative)
      (Node.literals_sublist_literalsOfAll hmem).subset
  | _, _, _, .empty occ => List.nil_subset _

theorem literalWords_subset_of_derives : ∀ {node : Node} {readings : List Reading}
    {keys : List Text}, Derives flags node readings keys → literalWords readings ⊆ node.literals
  | _, _, _, .once hoccurs => literalWords_subset_of_occurs hoccurs
  | _, _, _, .again _ _ hoccurs hrest => by
    rw [literalWords_append]
    exact List.append_subset.mpr
      ⟨literalWords_subset_of_occurs hoccurs, literalWords_subset_of_derives hrest⟩
  | _, _, _, .absent _ => List.nil_subset _

theorem literalWords_subset_of_derivesAll : ∀ {nodes : List Node} {readings : List Reading}
    {keys : List Text}, DerivesAll flags nodes readings keys →
      literalWords readings ⊆ Node.literalsOfAll nodes
  | _, _, _, .nil => List.nil_subset _
  | _, _, _, .cons hnode hnodes => by
    rw [literalWords_append, Node.literalsOfAll]
    exact List.append_subset.mpr
      ⟨List.subset_append_of_subset_left _ (literalWords_subset_of_derives hnode),
        List.subset_append_of_subset_right _ (literalWords_subset_of_derivesAll hnodes)⟩

end

mutual

/-- Where nothing repeats, the words are those of some of the literals, in their order. -/
theorem literalWords_sublist_of_occurs : ∀ {node : Node} {readings : List Reading}
    {keys : List Text}, Occurs flags node readings keys → node.RepeatsNowhere →
      (literalWords readings).Sublist node.literals
  | _, _, _, .literal occ name, _ => List.Sublist.refl _
  | _, _, _, .parameter occ name word, _ => List.nil_sublist _
  | _, _, _, .flag _, _ => List.nil_sublist _
  | _, _, _, .setting _ _, _ => List.nil_sublist _
  | _, _, _, .sequence hchildren, honce =>
    literalWords_sublist_of_derivesAll hchildren fun _ hchild => honce.of_mem_parts hchild
  | _, _, _, .choice hmem halternative, honce =>
    (literalWords_sublist_of_derives halternative (honce.of_mem_parts hmem)).trans
      (Node.literals_sublist_literalsOfAll hmem)
  | _, _, _, .empty occ, _ => List.nil_sublist _

theorem literalWords_sublist_of_derives : ∀ {node : Node} {readings : List Reading}
    {keys : List Text}, Derives flags node readings keys → node.RepeatsNowhere →
      (literalWords readings).Sublist node.literals
  | _, _, _, .once hoccurs, honce => literalWords_sublist_of_occurs hoccurs honce
  | _, _, _, .again hrepeating _ _ _, honce => by
    rw [honce.repeating_eq] at hrepeating
    cases hrepeating
  | _, _, _, .absent _, _ => List.nil_sublist _

theorem literalWords_sublist_of_derivesAll : ∀ {nodes : List Node} {readings : List Reading}
    {keys : List Text}, DerivesAll flags nodes readings keys →
      (∀ node ∈ nodes, node.RepeatsNowhere) →
        (literalWords readings).Sublist (Node.literalsOfAll nodes)
  | _, _, _, .nil, _ => List.nil_sublist _
  | _, _, _, .cons hnode hnodes, honce => by
    rw [literalWords_append, Node.literalsOfAll]
    exact (literalWords_sublist_of_derives hnode (honce _ List.mem_cons_self)).append
      (literalWords_sublist_of_derivesAll hnodes fun _ hmem => honce _ (List.mem_cons_of_mem _ hmem))

end

/-- A literal without marks is derived as itself. -/
theorem derives_literal {name : Text} {readings : List Reading}
    {keys : List Text} (h : Derives flags (.literal {} name) readings keys) :
    readings = [.keyword name] := by
  cases h with
  | once hoccurs =>
    cases hoccurs
    rfl
  | again hrepeating => cases hrepeating
  | absent habsent => cases habsent.1

end Derivations

namespace CommandLine

variable {H : Type}

/-! ## §2 Live paths -/

/-- The path is not empty, and the keywords of some line that the program accepts begin with it. -/
def IsLive (commandLine : CommandLine H) (path : List Text) : Prop :=
  path ≠ [] ∧ ∃ argv bindings, commandLine.parse argv = .ok (some bindings) ∧
    path.map some <+: keywords bindings

/-- Some arguments match and are handed to the handler of the path. -/
def Reaches (commandLine : CommandLine H) (path : List Text) (handler : H) : Prop :=
  ∃ argv bindings, commandLine.parse argv = .ok (some bindings) ∧
    commandLine.resolve bindings = some (path, handler)

section Live

variable {commandLine : CommandLine H} {path : List Text} {handler : H}

/-- Matches are handed to the only handler that is registered just if its path is a beginning of the
keywords. -/
theorem resolve_eq_some_iff (hhandlers : commandLine.handlers = [(path, handler)])
    (bindings : Bindings) :
    commandLine.resolve bindings = some (path, handler) ↔
      path ≠ [] ∧ path.map some <+: keywords bindings := by
  have hhandler (other : List Text) :
      commandLine.handler? other = if other = path then some handler else none := by
    rw [handler?, hhandlers, lookup_cons_eq_ite]
    rfl
  constructor
  · intro h
    have hserves := (servesBest_of_resolve h).toServes
    exact ⟨hserves.path_ne_nil, hserves.path_prefix⟩
  · rintro ⟨hne, hbegins⟩
    have hserves : commandLine.Serves (keywords bindings) path handler :=
      ⟨hne, hbegins, by rw [hhandler, if_pos rfl]⟩
    cases hresolve : commandLine.resolve bindings with
    | none => exact absurd hserves (not_serves_of_resolve hresolve path handler)
    | some found =>
      obtain ⟨other, handler'⟩ := found
      have hother := (servesBest_of_resolve hresolve).handler?_eq
      rw [hhandler] at hother
      split at hother
      · rename_i heq
        rw [heq, Option.some.inj hother]
      · cases hother

/-- The only handler that is registered is reached just if its path is live. -/
theorem reaches_iff_isLive (hhandlers : commandLine.handlers = [(path, handler)]) :
    commandLine.Reaches path handler ↔ commandLine.IsLive path := by
  simp only [Reaches, IsLive, resolve_eq_some_iff hhandlers]
  constructor
  · rintro ⟨argv, bindings, hparse, hne, hbegins⟩
    exact ⟨hne, argv, bindings, hparse, hbegins⟩
  · rintro ⟨hne, argv, bindings, hparse, hbegins⟩
    exact ⟨argv, bindings, hparse, hne, hbegins⟩

/-- Without reserved names, the words of the literals of a derivation begin with a live path. -/
theorem IsLive.exists_derives (h : commandLine.IsLive path)
    (hnames : ∀ name ∈ commandLine.grammar.names, isReserved name = false) :
    ∃ flags readings keys, Derives flags commandLine.grammar readings keys ∧
      path <+: literalWords readings := by
  obtain ⟨-, argv, bindings, hparse, hbegins⟩ := h
  obtain ⟨readings, flags, hmatches⟩ := exists_matches hparse
  obtain ⟨keys, hderives, -⟩ := hmatches.derives
  rw [(keywords_eq_iff hmatches.captures_eq).mpr (hmatches.unreserved hnames)] at hbegins
  exact ⟨flags, readings, keys, hderives,
    (List.prefix_map_iff_of_injective fun _ _ => Option.some.inj).mp hbegins⟩

/-- A path with a keyword that is no literal is not live. -/
theorem not_isLive_of_unknown {keyword : Text}
    (hnames : ∀ name ∈ commandLine.grammar.names, isReserved name = false)
    (hmem : keyword ∈ path) (hunknown : keyword ∉ commandLine.grammar.literals) :
    ¬ commandLine.IsLive path := by
  intro h
  obtain ⟨flags, readings, keys, hderives, hbegins⟩ := h.exists_derives hnames
  exact hunknown (literalWords_subset_of_derives hderives (hbegins.subset hmem))

/-- Where nothing repeats, a live path goes through the literals of the usage in their order. -/
theorem sublist_of_isLive (h : commandLine.IsLive path)
    (hnames : ∀ name ∈ commandLine.grammar.names, isReserved name = false)
    (honce : commandLine.grammar.RepeatsNowhere) :
    path.Sublist commandLine.grammar.literals := by
  obtain ⟨flags, readings, keys, hderives, hbegins⟩ := h.exists_derives hnames
  exact hbegins.sublist.trans (literalWords_sublist_of_derives hderives honce)

end Live

/-! ## §3 Registration -/

/-- A call for a free path is refused if some keywords are no literals of the usage, and it says
which. -/
theorem register_eq_error_iff {commandLine : CommandLine H} {path : List Text} {handler : H}
    {error : RegisterError} (hfree : commandLine.handler? path = none) :
    commandLine.register path handler = .error error ↔
      (∃ keyword ∈ path, keyword ∉ commandLine.grammar.literals) ∧
        error = .unknown (path.filter (!commandLine.grammar.literals.contains ·)) := by
  unfold register
  rw [hfree]
  cases hfilter : path.filter (!commandLine.grammar.literals.contains ·) with
  | nil =>
    have hknown : ∀ keyword ∈ path, keyword ∈ commandLine.grammar.literals := by
      simpa using hfilter
    simpa using fun keyword hmem hnot => absurd (hknown keyword hmem) hnot
  | cons keyword unknown =>
    have hmem : keyword ∈ path.filter (!commandLine.grammar.literals.contains ·) := by
      rw [hfilter]
      exact List.mem_cons_self
    have hunknown : ∃ keyword ∈ path, keyword ∉ commandLine.grammar.literals :=
      ⟨keyword, by simpa using hmem⟩
    simp [hunknown, eq_comm]

/-- **Registration.** Let a handler be the first one that is registered for a compiled usage. The
call is accepted just if all keywords of the path are literals of the usage; the program then has
this one handler. It is refused just if some are not, with these keywords as the reason, and the
program then stays as it is. A handler that was accepted is reached by some arguments just if its
path is live, which the empty path never is.

If the usage has no reserved names, the handler of a live path is accepted, and reached, so a path
that is refused is not live. What the literals of some derivation say begins with a live path then;
if besides nothing repeats in the usage, the path goes through its literals in their order. All other
paths of literals are accepted without being live. -/
theorem register_fresh {config : Config} {fresh : CommandLine H}
    (h : CommandLine.ofConfig config = .ok fresh) (path : List Text) (handler : H) :
    (∀ after, fresh.register path handler = .ok after ↔
      (∀ keyword ∈ path, keyword ∈ fresh.grammar.literals) ∧
        after = { fresh with handlers := [(path, handler)] }) ∧
    (∀ error, fresh.register path handler = .error error ↔
      (∃ keyword ∈ path, keyword ∉ fresh.grammar.literals) ∧
        error = .unknown (path.filter (!fresh.grammar.literals.contains ·))) ∧
    (∀ error, fresh.register path handler = .error error →
      fresh.registerAll [(path, handler)] = fresh) ∧
    (∀ after, fresh.register path handler = .ok after →
      (after.Reaches path handler ↔ fresh.IsLive path)) ∧
    ((∀ name ∈ fresh.grammar.names, isReserved name = false) →
      (fresh.IsLive path →
        ∃ after, fresh.register path handler = .ok after ∧ after.Reaches path handler) ∧
      (fresh.IsLive path → ∃ flags readings keys,
        Derives flags fresh.grammar readings keys ∧ path <+: literalWords readings) ∧
      (fresh.grammar.RepeatsNowhere → fresh.IsLive path →
        path.Sublist fresh.grammar.literals)) := by
  obtain ⟨tree, -, rfl⟩ := ofConfig_eq_ok_iff.mp h
  have hfree : (⟨config, tree, []⟩ : CommandLine H).handler? path = none := rfl
  have haccepted (after : CommandLine H) :
      (⟨config, tree, []⟩ : CommandLine H).register path handler = .ok after ↔
        (∀ keyword ∈ path, keyword ∈ tree.literals) ∧ after = ⟨config, tree, [(path, handler)]⟩ := by
    rw [register_eq_ok_iff]
    simp [hfree]
  have hreaches : (⟨config, tree, [(path, handler)]⟩ : CommandLine H).Reaches path handler ↔
      (⟨config, tree, []⟩ : CommandLine H).IsLive path := reaches_iff_isLive rfl
  refine ⟨haccepted, fun error => register_eq_error_iff hfree, ?_, ?_,
    fun hnames => ⟨?_, ?_, ?_⟩⟩
  · intro error herror
    simp only [registerAll, herror]
  · intro after hafter
    rw [((haccepted after).mp hafter).2]
    exact hreaches
  · intro hlive
    refine ⟨_, (haccepted _).mpr ⟨fun keyword hmem => ?_, rfl⟩, hreaches.mpr hlive⟩
    by_contra hunknown
    exact not_isLive_of_unknown hnames hmem hunknown hlive
  · exact fun hlive => hlive.exists_derives hnames
  · exact fun honce hlive => sublist_of_isLive hlive hnames honce

/-- A live path, a path of literals in the wrong order, and a path with a word that is no literal. -/
theorem register_fresh_install :
    let config : Config := ⟨"p".toList, "install (client | server) <name> [--dry]".toList, true, none⟩
    let live := ["install".toList, "server".toList]
    let turned := ["server".toList, "install".toList]
    let unknown := ["install".toList, "name".toList]
    ∃ fresh : CommandLine Unit, CommandLine.ofConfig config = .ok fresh ∧
      (∃ after, fresh.register live () = .ok after ∧ after.Reaches live ()) ∧
      (∃ after, fresh.register turned () = .ok after ∧ ¬ after.Reaches turned ()) ∧
      fresh.register unknown () = .error (.unknown ["name".toList]) ∧ ¬ fresh.IsLive unknown := by
  intro config live turned unknown
  let tree : Node := .sequence {} [.literal {} "install".toList,
    .choice {} [.literal {} "client".toList, .literal {} "server".toList],
    .parameter {} "name".toList, .flag ⟨true, false⟩ "dry".toList]
  let fresh : CommandLine Unit := ⟨config, tree, []⟩
  have hfresh : CommandLine.ofConfig config = .ok fresh :=
    ofConfig_eq_ok_iff.mpr ⟨tree, Match.eq_ok_of_toOption (by decide +kernel), rfl⟩
  have hnames : ∀ name ∈ fresh.grammar.names, isReserved name = false := by decide
  have honce : fresh.grammar.RepeatsNowhere := by
    intro node hnode
    simp only [fresh, tree, Node.nodes, Node.nodesOfAll, List.cons_append, List.nil_append,
      List.append_nil, List.mem_cons, List.not_mem_nil, or_false] at hnode
    rcases hnode with rfl | rfl | rfl | rfl | rfl | rfl | rfl <;> rfl
  have hlive : fresh.IsLive live := by
    refine ⟨by decide, ["install".toList, "server".toList, "x".toList],
      ⟨[("unnamed_0".toList, some "install".toList), ("unnamed_1".toList, some "server".toList),
        ("name".toList, some "x".toList)]⟩, Match.eq_ok_of_toOption (by decide +kernel), ?_⟩
    exact ⟨[], by decide⟩
  obtain ⟨-, -, -, -, hreserved⟩ := register_fresh hfresh live ()
  obtain ⟨hturned, -, -, hreaches, hturnedReserved⟩ := register_fresh hfresh turned ()
  obtain ⟨-, hrefused, -, -, hunknownReserved⟩ := register_fresh hfresh unknown ()
  have haccepted := (hturned _).mpr ⟨by decide, rfl⟩
  have herror := (hrefused _).mpr ⟨by decide, rfl⟩
  refine ⟨fresh, hfresh, (hreserved hnames).1 hlive, ⟨_, haccepted, ?_⟩, herror, ?_⟩
  · rw [hreaches _ haccepted]
    intro hlive
    exact absurd ((hturnedReserved hnames).2.2 honce hlive) (by decide)
  · intro hlive
    obtain ⟨after, hafter, -⟩ := (hunknownReserved hnames).1 hlive
    cases herror.symm.trans hafter

/-- A path that begins in the middle of the only line of literals is accepted, and no arguments reach
its handler. -/
theorem not_forall_reaches_of_register :
    ¬ ∀ (config : Config) (fresh after : CommandLine Unit) (path : List Text),
      CommandLine.ofConfig config = .ok fresh → fresh.register path () = .ok after →
        after.Reaches path () := by
  intro hall
  let tree : Node := .sequence {} [.literal {} "remote".toList, .literal {} "add".toList]
  let config : Config := ⟨"p".toList, "remote add".toList, false, none⟩
  let after : CommandLine Unit := ⟨config, tree, [(["add".toList], ())]⟩
  have hfresh : CommandLine.ofConfig config = .ok (⟨config, tree, []⟩ : CommandLine Unit) :=
    ofConfig_eq_ok_iff.mpr ⟨tree, Match.eq_ok_of_toOption (by decide +kernel), rfl⟩
  have hregister : (⟨config, tree, []⟩ : CommandLine Unit).register ["add".toList] () = .ok after :=
    register_eq_ok_iff.mpr ⟨rfl, by decide, rfl⟩
  have hlive := (reaches_iff_isLive rfl).mp (hall config _ after _ hfresh hregister)
  obtain ⟨flags, readings, keys, hderives, hbegins⟩ := hlive.exists_derives (by decide)
  obtain rfl : readings = [.keyword "remote".toList, .keyword "add".toList] := by
    cases hderives with
    | again hrepeating => cases hrepeating
    | absent habsent => cases habsent.1
    | once hoccurs =>
      cases hoccurs with
      | sequence hchildren =>
        cases hchildren with
        | cons hremote hrest =>
          cases hrest with
          | cons hadd hnil =>
            cases hnil
            rw [derives_literal hremote, derives_literal hadd]
            rfl
  exact absurd hbegins (by decide)

end CommandLine

end Dispatch

end Synopsis
