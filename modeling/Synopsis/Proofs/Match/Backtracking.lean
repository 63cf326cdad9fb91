/-
Synopsis.Proofs.Match.Backtracking — the search in a sequence is a recursion.

A sequence is matched by a search that keeps its decisions on a stack, shared with
the sequences around it. `attempt_sequence_eq_descend` says that this search and
the recursion `descend` give the same answer and remember the same, whatever was
remembered before.

The invariant is `Answers`: a search from some slot on either ends as the recursion
does, or it comes back to the stack on which it began, with nothing left of its own.
Its proof is an induction on the slots that are left (`answers_descend`), and inside
that one on the number of occurrences still allowed to a slot (`answers_fewer`). The
decisions below play no part in it, which is why nested sequences can share a stack.
-/
import Synopsis.Proofs.Match.Descent
import Synopsis.Proofs.Node.Induction

namespace Synopsis

namespace Match

/-! ## §1 Searches and their answers -/

namespace Search

theorem lt_of_mem_filter {slot : Nat} {caps : List (Nat × Nat)} {entry : Nat × Nat}
    (h : entry ∈ caps.filter fun (other, _) => other < slot) : entry.1 < slot := by
  have := (List.mem_filter.mp h).2
  simpa using this

/-- Both tables have the same limits for the slots before the given one. -/
def SameBelow (slot : Nat) (caps caps' : List (Nat × Nat)) : Prop :=
  (caps.filter fun (other, _) => other < slot) = caps'.filter fun (other, _) => other < slot

theorem SameBelow.trans {slot : Nat} {a b c : List (Nat × Nat)} (hab : SameBelow slot a b)
    (hbc : SameBelow slot b c) : SameBelow slot a c :=
  Eq.trans hab hbc

theorem filter_filter_lt {slot slot' : Nat} (h : slot ≤ slot') (caps : List (Nat × Nat)) :
    ((caps.filter fun (other, _) => other < slot').filter fun (other, _) => other < slot) =
      caps.filter fun (other, _) => other < slot := by
  rw [List.filter_filter]
  apply List.filter_congr
  rintro ⟨other, limit⟩ _
  by_cases hlt : other < slot
  · simp [hlt, Nat.lt_of_lt_of_le hlt h]
  · simp [hlt]

theorem SameBelow.mono {slot slot' : Nat} {caps caps' : List (Nat × Nat)}
    (h : SameBelow slot' caps caps') (hle : slot ≤ slot') : SameBelow slot caps caps' := by
  unfold SameBelow at h ⊢
  rw [← filter_filter_lt hle caps, h, filter_filter_lt hle caps']

/-- The search comes back to the given decisions. Nothing is left of what it did but what it added
to the trail, and the limits of the slots before its own are as they were. -/
structure ComesBack (slots : List Slot) (total : Nat) (last : Bool) (beginning : Memory)
    (search : Search) (stack : List Retry) (caps : List (Nat × Nat)) (memory : Memory) : Prop where
  run_eq : run slots total last beginning search =
    follow slots total last beginning (back beginning caps memory)
  stack_eq : memory.stack = stack
  trail_extends : memory.trail.Extends search.memory.trail
  caps_same : SameBelow search.slot caps search.caps

/-- The search comes to the given result. If that is that nothing matches, it comes back to the
decisions it began with. -/
def Answers (slots : List Slot) (total : Nat) (last : Bool) (beginning : Memory) (search : Search)
    (result : Attempt × Memory) : Prop :=
  match result.1 with
  | .refused =>
    ∃ caps memory, ComesBack slots total last beginning search search.memory.stack caps memory
  | attempt =>
    run slots total last beginning search = (attempt, result.2.withStack beginning.stack)

section Answers

variable {slots : List Slot} {total : Nat} {last : Bool} {beginning : Memory} {search : Search}

/-- The run of a search whose result is no refusal. -/
theorem Answers.run_eq {result : Attempt × Memory}
    (h : Answers slots total last beginning search result) (hresult : result.1 ≠ .refused) :
    run slots total last beginning search = (result.1, result.2.withStack beginning.stack) := by
  unfold Answers at h
  split at h
  · contradiction
  · exact h

/-- The run of a search whose result is a refusal. -/
theorem Answers.comesBack {result : Attempt × Memory}
    (h : Answers slots total last beginning search result) (hresult : result.1 = .refused) :
    ∃ caps memory,
      ComesBack slots total last beginning search search.memory.stack caps memory := by
  unfold Answers at h
  rw [hresult] at h
  exact h

theorem answers_of_run_eq {result : Attempt × Memory} (hresult : result.1 ≠ .refused)
    (h : run slots total last beginning search =
      (result.1, result.2.withStack beginning.stack)) :
    Answers slots total last beginning search result := by
  unfold Answers
  split
  · contradiction
  · exact h

/-- A search that takes the same course as a later one with the same decisions has its answer. -/
theorem answers_of_later {later : Search} {result : Attempt × Memory}
    (hrun : run slots total last beginning search = run slots total last beginning later)
    (hstack : later.memory.stack = search.memory.stack)
    (hextends : later.memory.trail.Extends search.memory.trail)
    (hcaps : SameBelow search.slot later.caps search.caps) (hslot : search.slot ≤ later.slot)
    (h : Answers slots total last beginning later result) :
    Answers slots total last beginning search result := by
  by_cases hresult : result.1 = .refused
  · obtain ⟨caps, memory, hback, hstack', hextends', hcaps'⟩ := h.comesBack hresult
    unfold Answers
    rw [hresult]
    exact ⟨caps, memory, hrun.trans hback, hstack'.trans hstack, hextends'.trans hextends,
      (hcaps'.mono hslot).trans hcaps⟩
  · exact answers_of_run_eq hresult (hrun.trans (h.run_eq hresult))

end Answers

/-! ## §2 One slot -/

/-- The search comes to the slots `rest` for the first time: it has left out only slots before
them and limits only those, and it stands on the decisions there were at the beginning. -/
structure Fresh (slots : List Slot) (beginning : Memory) (search : Search) (rest : List Slot) :
    Prop where
  drop_eq : slots.drop search.slot = rest
  leftOut_lt : ∀ other ∈ search.leftOut, other < search.slot
  caps_lt : ∀ entry ∈ search.caps, entry.1 < search.slot
  suffix : beginning.stack <:+ search.memory.stack

section Fresh

variable {slots rest : List Slot} {slot : Slot} {total : Nat} {last : Bool} {beginning : Memory}
  {search : Search}

theorem Fresh.getElem? (h : Fresh slots beginning search (slot :: rest)) :
    slots[search.slot]? = some slot := by
  have := congrArg (·[0]?) h.drop_eq
  simpa using this

theorem Fresh.drop_succ (h : Fresh slots beginning search (slot :: rest)) :
    slots.drop (search.slot + 1) = rest := by
  rw [← List.drop_drop, h.drop_eq]
  rfl

theorem Fresh.isLast (h : Fresh slots beginning search (slot :: rest)) :
    (search.slot + 1 == slots.length) = rest.isEmpty := by
  have hlength := congrArg List.length h.drop_succ
  have hlt := (List.getElem?_eq_some_iff.mp h.getElem?).1
  rw [List.length_drop] at hlength
  rw [Bool.eq_iff_iff, beq_iff_eq, List.isEmpty_iff_length_eq_zero]
  omega

theorem Fresh.notMem (h : Fresh slots beginning search rest) : search.slot ∉ search.leftOut :=
  fun hmem => Nat.lt_irrefl _ (h.leftOut_lt _ hmem)

theorem Fresh.cap_eq (h : Fresh slots beginning search rest) : search.cap = none := by
  unfold cap
  rw [List.lookup_eq_none_iff]
  intro entry hentry
  have := h.caps_lt entry hentry
  simp
  omega

/-- Behind the slot the search comes to the next one for the first time. -/
theorem Fresh.next (h : Fresh slots beginning search (slot :: rest)) {later : Search}
    (hslot : later.slot = search.slot + 1) (hleft : ∀ other ∈ later.leftOut, other ≤ search.slot)
    (hcaps : ∀ entry ∈ later.caps, entry.1 ≤ search.slot)
    (hsuffix : beginning.stack <:+ later.memory.stack) : Fresh slots beginning later rest where
  drop_eq := by rw [hslot, h.drop_succ]
  leftOut_lt other hother := hslot ▸ Nat.lt_succ_of_le (hleft other hother)
  caps_lt entry hentry := hslot ▸ Nat.lt_succ_of_le (hcaps entry hentry)
  suffix := hsuffix

theorem Fresh.lawful (h : Fresh slots beginning search (slot :: rest))
    (hlawful : ∀ other ∈ slots, other.Lawful) : slot.Lawful ∧ ∀ other ∈ rest, other.Lawful :=
  ⟨hlawful slot (List.mem_of_getElem? h.getElem?),
    fun other hother => hlawful other (List.mem_of_mem_drop (h.drop_succ ▸ hother))⟩

/-- All searches that come to the slots `rest` for the first time find what the recursion finds. -/
def Finds (slots : List Slot) (total : Nat) (last : Bool) (beginning : Memory)
    (rest : List Slot) : Prop :=
  ∀ later, Fresh slots beginning later rest →
    Answers slots total last beginning later (descend total last rest later.token later.memory)

/-- The next step at a slot that is not left out. -/
theorem step_of_getElem? (total : Nat) (last : Bool) (beginning : Memory) (search : Search)
    (hget : slots[search.slot]? = some slot) (hleft : search.slot ∉ search.leftOut) :
    step slots total last beginning search =
      match mayLeaveOut slot search.cap with
      | none =>
        .stop (.fault .undetermined) (search.memory.dropTo beginning.stack.length)
      | some leave =>
        match slot.process total search.token (last && search.slot + 1 == slots.length) search.cap
            (search.withOmission leave) with
        | (.fault fault, after) =>
          .stop (.fault fault) (after.dropTo beginning.stack.length)
        | (.failed, after) => back beginning search.caps after
        | (.reached token count, after) =>
          .next (search.advance token (search.withReduction count after)) := by
  unfold step
  simp only [hget]
  exact if_neg hleft

/-- Going back to a decision that was made since the beginning takes it up. -/
theorem back_cons {memory : Memory} {retry : Retry} {stack : List Retry}
    {caps : List (Nat × Nat)} (hstack : memory.stack = retry :: stack)
    (hsuffix : beginning.stack <:+ stack) :
    back beginning caps memory = .next (resume caps memory.trail stack retry) := by
  unfold back
  rw [hstack]
  exact if_pos hsuffix.length_le

/-- A slot with a limit is not left out. -/
theorem mayLeaveOut_some {leave : Bool} (h : slot.omissible? = some leave) (limit : Nat) :
    mayLeaveOut slot (some limit) = some false := by
  unfold mayLeaveOut
  split
  · rename_i hoptional
    rw [Slot.omissible?, if_pos hoptional] at h
    simp [h]
  · rfl

theorem mayLeaveOut_none (slot : Slot) : mayLeaveOut slot none = slot.omissible? := by
  unfold mayLeaveOut Slot.omissible?
  split
  · cases slot.positional? <;> simp
  · rfl

/-- When the search has come back to the decision to leave out the slot, or has none to come back
to, it goes on without the slot or has failed. -/
theorem answers_omission (hfresh : Fresh slots beginning search (slot :: rest))
    (ih : Finds slots total last beginning rest)
    {leave : Bool} {caps : List (Nat × Nat)} {memory : Memory}
    (hback : ComesBack slots total last beginning search (search.withOmission leave).stack caps
      memory) :
    Answers slots total last beginning search
      (if leave then descend total last rest search.token search.memory
        else (.refused, search.memory)) := by
  obtain ⟨hrun, hstack, hextends, hcaps⟩ := hback
  cases leave with
  | false => exact ⟨caps, memory, hrun, hstack, hextends, hcaps⟩
  | true =>
    let kept := caps.filter fun (other, _) => other < search.slot
    let later : Search :=
      ⟨search.slot + 1, search.token, search.slot :: search.leftOut, kept, search.memory⟩
    have hback : back beginning caps memory = .next { later with slot := search.slot } := by
      rw [back_cons hstack hfresh.suffix]
      simp [resume, later, kept, hextends.cutTo_mark]
    have hlater : run slots total last beginning search = run slots total last beginning later := by
      rw [hrun, hback, follow, run_eq_follow]
      simp [step, hfresh.getElem?, later, follow]
    have hsame : SameBelow search.slot kept search.caps :=
      SameBelow.trans (filter_filter_lt (Nat.le_refl _) caps) hcaps
    refine answers_of_later hlater rfl (.refl _) hsame (Nat.le_succ _) (ih later ?_)
    refine hfresh.next rfl ?_ ?_ hfresh.suffix
    · intro other hother
      rcases List.mem_cons.mp hother with rfl | hother
      · exact Nat.le_refl _
      · exact Nat.le_of_lt (hfresh.leftOut_lt other hother)
    · exact fun entry hentry => Nat.le_of_lt (lt_of_mem_filter hentry)

/-- The search when it takes up the decision to repeat the slot no more often than `limit` times.
The stack is what that decision stood on. -/
def limitedTo (search : Search) (limit : Nat) (caps : List (Nat × Nat)) (stack : List Retry) :
    Search :=
  { search with
    caps := (search.slot, limit) :: caps.filter fun (other, _) => other < search.slot
    memory := search.memory.withStack stack }

/-- A slot that reaches its limit leaves the decision for the next lower one. -/
theorem step_limitedTo (hslot : slot.Lawful) (hfresh : Fresh slots beginning search (slot :: rest))
    {leave : Bool} (hleave : slot.omissible? = some leave)
    (hlast : (last && rest.isEmpty) = false) {limit next : Nat} {after : Memory}
    (hprocess : slot.process total search.token false (some limit) search.memory =
      (.reached next limit, after)) (caps : List (Nat × Nat)) (stack : List Retry) :
    step slots total last beginning (search.limitedTo limit caps stack) =
      .next ((search.limitedTo limit caps stack).advance next
        ((search.limitedTo limit caps stack).withReduction limit (after.withStack stack))) := by
  have hcap : (search.limitedTo limit caps stack).cap = some limit := by simp [limitedTo, cap]
  have hisLast :
      (last && (search.limitedTo limit caps stack).slot + 1 == slots.length) = false := by
    rw [show (search.limitedTo limit caps stack).slot = search.slot from rfl, hfresh.isLast]
    exact hlast
  have hsame : slot.process total (search.limitedTo limit caps stack).token false (some limit)
      ((search.limitedTo limit caps stack).withOmission false) =
        (.reached next limit, after.withStack stack) := by
    show slot.process total search.token false (some limit) (search.memory.withStack stack) = _
    rw [Slot.process_withStack hslot, hprocess]
    rfl
  rw [step_of_getElem? total last beginning (search.limitedTo limit caps stack) hfresh.getElem?
    hfresh.notMem, hcap, mayLeaveOut_some hleave]
  simp only [hisLast, hsame]

/-- The search behind the slot, when it occurred `count` times before the word `next`. It has the
decisions about the slot on its stack, and the given limits. -/
def beyond (search : Search) (leave : Bool) (caps : List (Nat × Nat)) (next count : Nat)
    (after : Memory) : Search :=
  { search with
    slot := search.slot + 1
    token := next
    caps := caps
    memory := after.withStack (search.withReduction count (search.withOmission leave)).stack }

theorem withReduction_withStack (search : Search) (count : Nat) (after memory : Memory) :
    search.withReduction count (after.withStack memory.stack) =
      after.withStack (search.withReduction count memory).stack := by
  unfold withReduction
  split <;> rfl

theorem advance_eq_beyond (search : Search) (leave : Bool) (next count : Nat) (after : Memory) :
    search.advance next
        (search.withReduction count (after.withStack (search.withOmission leave).stack)) =
      search.beyond leave search.caps next count after := by
  rw [withReduction_withStack]
  rfl

theorem advance_limitedTo_eq_beyond (search : Search) (leave : Bool) (caps : List (Nat × Nat))
    (next limit : Nat) (after : Memory) :
    let limited := search.limitedTo limit caps (search.withOmission leave).stack
    limited.advance next
        (limited.withReduction limit (after.withStack (search.withOmission leave).stack)) =
      search.beyond leave limited.caps next limit after := by
  intro limited
  show limited.advance next
    (search.withReduction limit (after.withStack (search.withOmission leave).stack)) = _
  rw [withReduction_withStack]
  rfl

theorem Fresh.beyond (hfresh : Fresh slots beginning search (slot :: rest)) (leave : Bool)
    {caps : List (Nat × Nat)} (hcaps : ∀ entry ∈ caps, entry.1 ≤ search.slot) (next count : Nat)
    (after : Memory) : Fresh slots beginning (search.beyond leave caps next count after) rest :=
  hfresh.next rfl (fun other hother => Nat.le_of_lt (hfresh.leftOut_lt other hother)) hcaps
    ((hfresh.suffix.trans (search.suffix_withOmission leave)).trans
      (search.suffix_withReduction count _))

/-- Behind the slot the search finds what the recursion finds there. If that is nothing, it comes
back to the decisions about the slot. -/
theorem cases_of_run_beyond (hlawful : ∀ other ∈ slots, other.Lawful)
    (hfresh : Fresh slots beginning search (slot :: rest)) (ih : Finds slots total last beginning rest)
    {leave : Bool} {caps : List (Nat × Nat)} {next count : Nat} {after : Memory}
    (hcaps : ∀ entry ∈ caps, entry.1 ≤ search.slot) (hsame : SameBelow search.slot caps search.caps)
    (hextends : after.trail.Extends search.memory.trail)
    (hrun : run slots total last beginning search =
      run slots total last beginning (search.beyond leave caps next count after)) :
    ((descend total last rest next after).1 ≠ .refused ∧
      Answers slots total last beginning search (descend total last rest next after)) ∨
    ((descend total last rest next after).1 = .refused ∧ ∃ caps memory,
      ComesBack slots total last beginning search
        (search.withReduction count (search.withOmission leave)).stack caps memory) := by
  have hanswers := ih _ (hfresh.beyond leave hcaps next count after)
  change Answers slots total last beginning (search.beyond leave caps next count after)
    (descend total last rest next (after.withStack _)) at hanswers
  rw [descend_withStack (hfresh.lawful hlawful).2] at hanswers
  by_cases hresult : (descend total last rest next after).1 = .refused
  · obtain ⟨caps', memory, hback, hstack, hextends', hcaps'⟩ := hanswers.comesBack hresult
    exact .inr ⟨hresult, caps', memory, hrun.trans hback, hstack, hextends'.trans hextends,
      (hcaps'.mono (Nat.le_succ _)).trans hsame⟩
  · exact .inl ⟨hresult, answers_of_run_eq hresult (hrun.trans (hanswers.run_eq hresult))⟩

/-- When the search has come back to the decision to repeat the slot no more often than `limit`
times and the slot reaches this limit, the search goes on behind it. -/
theorem run_eq_beyond_of_comesBack (hslot : slot.Lawful)
    (hfresh : Fresh slots beginning search (slot :: rest)) {leave : Bool}
    (hleave : slot.omissible? = some leave) (hlast : (last && rest.isEmpty) = false)
    {limit next : Nat} {after : Memory}
    (hprocess : slot.process total search.token false (some (limit + 1)) search.memory =
      (.reached next (limit + 1), after))
    {caps : List (Nat × Nat)} {memory : Memory}
    (hback : ComesBack slots total last beginning search
      (search.withReduction (limit + 1 + 1) (search.withOmission leave)).stack caps memory) :
    run slots total last beginning search = run slots total last beginning
      (search.beyond leave ((search.slot, limit + 1) :: caps.filter fun (other, _) =>
        other < search.slot) next (limit + 1) after) := by
  obtain ⟨hrun, hstack, hextends, -⟩ := hback
  let stack := (search.withOmission leave).stack
  have hback : back beginning caps memory = .next (search.limitedTo (limit + 1) caps stack) := by
    have hpush : memory.stack = ⟨search.slot, search.token, search.memory.trail.mark,
        search.leftOut, some (limit + 1)⟩ :: stack := by
      rw [hstack]
      simp [withReduction, stack]
    rw [back_cons hpush (hfresh.suffix.trans (search.suffix_withOmission leave))]
    simp [resume, limitedTo, hextends.cutTo_mark, Memory.withStack]
  rw [hrun, hback, follow, run_eq_follow,
    step_limitedTo hslot hfresh hleave hlast hprocess caps stack, follow,
    advance_limitedTo_eq_beyond]
  rfl

/-- When the search has come back to the decision to repeat the slot no more often than `limit`
times, it goes on with fewer and fewer occurrences. The induction is on the limit: each limit that
the slot reaches puts the decision for the next lower one on the stack. -/
theorem answers_fewer (hlawful : ∀ other ∈ slots, other.Lawful)
    (hfresh : Fresh slots beginning search (slot :: rest))
    (ih : Finds slots total last beginning rest)
    {leave : Bool} (hleave : slot.omissible? = some leave)
    (hlast : (last && rest.isEmpty) = false) {next count : Nat} {after : Memory}
    (hfound : slot.process total search.token false none search.memory =
      (.reached next count, after))
    {limit : Nat} (hlimit : limit ≤ count - 1) {caps : List (Nat × Nat)} {memory : Memory}
    (hback : ComesBack slots total last beginning search
      (search.withReduction (limit + 1) (search.withOmission leave)).stack caps memory) :
    Answers slots total last beginning search
      (orTry
        (fewer search.memory (fun limit => behind search.memory (descend total last rest)
          (slot.process total search.token false (some limit) search.memory)) limit)
        (if leave then descend total last rest search.token search.memory
          else (.refused, search.memory))) := by
  have hslot := (hfresh.lawful hlawful).1
  induction limit generalizing caps memory with
  | zero => exact answers_omission hfresh ih hback
  | succ limit ihlimit =>
    obtain ⟨next', after', hprocess⟩ :=
      Slot.process_limit hfound (by omega) (Nat.succ_pos limit) (by omega)
    have hextends := Slot.trail_extends_process hslot total search.token false (some (limit + 1))
      search.memory
    rw [hprocess] at hextends
    have hkept : ∀ entry ∈ (search.slot, limit + 1) :: caps.filter fun (other, _) =>
        other < search.slot, entry.1 ≤ search.slot := by
      intro entry hentry
      rcases List.mem_cons.mp hentry with rfl | hentry
      · exact Nat.le_refl _
      · exact Nat.le_of_lt (lt_of_mem_filter hentry)
    have hsame : SameBelow search.slot ((search.slot, limit + 1) :: caps.filter fun (other, _) =>
        other < search.slot) search.caps :=
      SameBelow.trans (by simp [SameBelow]) hback.caps_same
    simp only [fewer, hprocess, behind]
    rcases cases_of_run_beyond hlawful hfresh ih hkept hsame hextends
      (run_eq_beyond_of_comesBack hslot hfresh hleave hlast hprocess hback) with
      ⟨hresult, hanswers⟩ | ⟨hrefused, caps', memory', hback'⟩
    · rw [orTry_of_ne hresult, orTry_of_ne hresult]
      exact hanswers
    · rw [orTry_of_eq hrefused]
      exact ihlimit (Nat.le_of_succ_le hlimit) hback'

theorem withReduction_sub_add (search : Search) (count : Nat) (after : Memory) :
    search.withReduction (count - 1 + 1) after = search.withReduction count after := by
  cases count <;> rfl

/-- When the slot was matched, the search goes on behind it, and comes back to the decisions about
it if nothing matches there. -/
theorem answers_reached (hlawful : ∀ other ∈ slots, other.Lawful)
    (hfresh : Fresh slots beginning search (slot :: rest))
    (ih : Finds slots total last beginning rest)
    {leave : Bool} (hleave : slot.omissible? = some leave) {next count : Nat}
    {after : Memory}
    (hfound : slot.process total search.token (last && rest.isEmpty) none search.memory =
      (.reached next count, after))
    (hrun : run slots total last beginning search = run slots total last beginning
      (search.beyond leave search.caps next count after)) :
    Answers slots total last beginning search
      (orTry (descend total last rest next after)
        (orTry
          (fewer search.memory (fun limit => behind search.memory (descend total last rest)
            (slot.process total search.token (last && rest.isEmpty) (some limit) search.memory))
            (count - 1))
          (if leave then descend total last rest search.token search.memory
            else (.refused, search.memory)))) := by
  have hextends := Slot.trail_extends_process (hfresh.lawful hlawful).1 total search.token
    (last && rest.isEmpty) none search.memory
  rw [hfound] at hextends
  have hkept := fun entry hentry => Nat.le_of_lt (hfresh.caps_lt entry hentry)
  rcases cases_of_run_beyond hlawful hfresh ih hkept rfl hextends hrun with
    ⟨hresult, hanswers⟩ | ⟨hrefused, caps, memory, hback⟩
  · rw [orTry_of_ne hresult]
    exact hanswers
  · have hlast : (last && rest.isEmpty) = false := by
      cases rest with
      | nil => simp [descend] at hrefused
      | cons _ _ => simp
    rw [orTry_of_eq hrefused, hlast]
    rw [hlast] at hfound
    rw [← withReduction_sub_add] at hback
    exact answers_fewer hlawful hfresh ih hleave hlast hfound (Nat.le_refl _) hback

end Fresh

/-! ## §3 All slots -/

section Descend

variable {slots : List Slot} {beginning : Memory}

theorem dropTo_eq_withStack {memory : Memory} {stack : List Retry} (h : stack <:+ memory.stack) :
    memory.dropTo stack.length = memory.withStack stack := by
  have heq := Memory.stack_dropTo h
  simp only [Memory.dropTo, Memory.withStack] at heq ⊢
  rw [heq]

/-- A search that comes to some slots for the first time finds what the recursion finds. The
induction is on these slots. -/
theorem answers_descend (hlawful : ∀ other ∈ slots, other.Lawful) (total : Nat) (last : Bool)
    {rest : List Slot} {search : Search} (hfresh : Fresh slots beginning search rest) :
    Answers slots total last beginning search
      (descend total last rest search.token search.memory) := by
  induction rest generalizing search with
  | nil =>
    apply answers_of_run_eq (by simp [descend])
    have hget : slots[search.slot]? = none := by
      have := congrArg (·[0]?) hfresh.drop_eq
      simpa using this
    rw [run_eq_follow, step]
    simp only [hget, follow, descend, dropTo_eq_withStack hfresh.suffix]
  | cons slot rest ih =>
    have hslot := (hfresh.lawful hlawful).1
    have hrun := run_eq_follow slots total last beginning search
    rw [step_of_getElem? total last beginning search hfresh.getElem? hfresh.notMem, hfresh.cap_eq,
      hfresh.isLast, mayLeaveOut_none] at hrun
    unfold descend
    cases hleave : slot.omissible? with
    | none =>
      simp only [hleave, follow] at hrun ⊢
      refine answers_of_run_eq (by simp) (hrun.trans ?_)
      rw [dropTo_eq_withStack hfresh.suffix]
    | some leave =>
      let stack := (search.withOmission leave).stack
      have homitted : search.withOmission leave = search.memory.withStack stack := by
        simp only [stack, withOmission]
        split <;> rfl
      have hsuffix : beginning.stack <:+ stack :=
        hfresh.suffix.trans (search.suffix_withOmission leave)
      have hextends := Slot.trail_extends_process hslot total search.token (last && rest.isEmpty)
        none search.memory
      simp only [hleave] at hrun ⊢
      rw [homitted, Slot.process_withStack hslot] at hrun
      cases hfound : slot.process total search.token (last && rest.isEmpty) none search.memory with
      | mk progress after =>
        rw [hfound] at hrun hextends
        cases progress with
        | fault fault =>
          refine answers_of_run_eq (by simp [behind, orTry]) (hrun.trans ?_)
          have hsuffix' : beginning.stack <:+ (after.withStack stack).stack := hsuffix
          simp only [onStack_mk, follow, behind, orTry, dropTo_eq_withStack hsuffix']
          rfl
        | failed => exact answers_omission hfresh (fun _ => ih) ⟨hrun, rfl, hextends, rfl⟩
        | reached next count =>
          refine answers_reached hlawful hfresh (fun _ => ih) hleave hfound (hrun.trans ?_)
          rw [← advance_eq_beyond]
          rfl

end Descend

end Search

/-- The search in a sequence finds what the recursion finds, and the decisions that were there
before are there again afterwards. -/
theorem allOf_eq_descend_of_lawful {slots : List Slot} (hlawful : ∀ slot ∈ slots, slot.Lawful)
    (total token : Nat) (last : Bool) (memory : Memory) :
    allOf total token last memory slots = descend total last slots token memory := by
  have hfresh : Search.Fresh slots memory (.start token memory) slots :=
    ⟨rfl, by simp [Search.start], by simp [Search.start], List.suffix_refl _⟩
  have hanswers := Search.answers_descend hlawful total last hfresh
  by_cases hresult : (descend total last slots token memory).1 = .refused
  · obtain ⟨caps, after, hrun, hstack, hextends, -⟩ := hanswers.comesBack hresult
    change after.trail.Extends memory.trail at hextends
    have hback : Search.back memory caps after = .stop .refused memory := by
      have hcut : after.cutTo memory.trail.mark = memory := by
        unfold Memory.cutTo Memory.withTrail
        rw [hextends.cutTo_mark, hstack]
        rfl
      unfold Search.back
      rw [hcut]
      split
      · rfl
      · rename_i retry stack htop
        have hheight : ¬ memory.stack.length ≤ stack.length := by
          rw [show memory.stack = retry :: stack from hstack.symm.trans htop, List.length_cons]
          omega
        rw [if_neg hheight]
    rw [allOf, hrun, hback, Search.follow]
    exact Prod.ext hresult.symm (descend_refused hresult).symm
  · rw [allOf, hanswers.run_eq hresult]
    have hstack := stack_descend hlawful total last token memory
    rw [← hstack]
    rfl

/-! ## §4 Nodes -/

theorem lawful_sequence {slots : List Slot} (h : ∀ slot ∈ slots, slot.Lawful) (total : Nat) :
    (Matcher.sequence total slots).Lawful where
  trail_extends token last memory := by
    show (allOf total token last memory slots).2.trail.Extends memory.trail
    rw [allOf_eq_descend_of_lawful h]
    exact trail_extends_descend h total last token memory
  trail_eq := by
    intro token last memory after result hattempt hresult
    change allOf total token last memory slots = (result, after) at hattempt
    rw [allOf_eq_descend_of_lawful h] at hattempt
    rcases hresult with rfl | rfl
    · have hrefused := descend_refused (congrArg Prod.fst hattempt)
      rw [hattempt] at hrefused
      exact congrArg Memory.trail hrefused
    · exact absurd (congrArg Prod.fst hattempt) (descend_ne_barred slots total last token memory)
  attempt_withStack token last memory stack := by
    show allOf total token last (memory.withStack stack) slots =
      onStack stack (allOf total token last memory slots)
    rw [allOf_eq_descend_of_lawful h, allOf_eq_descend_of_lawful h, descend_withStack h]

/-- Every node is matched lawfully. -/
theorem lawful_matcher (line : Line.Parsed) (node : Node) : (matcher line node).Lawful := by
  induction node using Node.inductionOn with
  | literal occ name => rw [matcher]; exact lawful_takeToken line unnamedKey _
  | parameter occ name => rw [matcher]; exact lawful_takeToken line (fun _ => name) _
  | flag occ key => rw [matcher]; exact lawful_takeFlag line key _
  | setting occ key value => rw [matcher]; exact lawful_takeFlag line key _
  | sequence occ children ih =>
    rw [matcher, slots_eq_map]
    exact lawful_sequence (List.forall_mem_map.mpr ih) _
  | choice occ alternatives ih =>
    rw [matcher, slots_eq_map]
    exact lawful_choice (List.forall_mem_map.mpr ih) _
  | empty occ => rw [matcher]; exact lawful_nothing
  | hole occ => rw [matcher]; exact lawful_takeHole line

theorem lawful_map_slotOf (line : Line.Parsed) (nodes : List Node) :
    ∀ slot ∈ nodes.map (slotOf line), slot.Lawful :=
  List.forall_mem_map.mpr fun node _ => lawful_matcher line node

/-- The search through the slots of nodes is the recursion over them. -/
theorem allOf_eq_descend (line : Line.Parsed) (nodes : List Node) (total token : Nat) (last : Bool)
    (memory : Memory) :
    allOf total token last memory (nodes.map (slotOf line)) =
      descend total last (nodes.map (slotOf line)) token memory :=
  allOf_eq_descend_of_lawful (lawful_map_slotOf line nodes) total token last memory

theorem attempt_sequence (line : Line.Parsed) (occ : Occurrence) (children : List Node)
    (token : Nat) (last : Bool) (memory : Memory) :
    attempt line (.sequence occ children) token last memory =
      allOf line.words.length token last memory (children.map (slotOf line)) := by
  rw [attempt, matcher, slots_eq_map]
  rfl

/-- **Backtracking is recursion.** Whatever is remembered when a sequence is matched, the search
over a stack of decisions and the recursion over its members come to the same result and remember
the same captures, the same admitted flags and the same stack. -/
theorem attempt_sequence_eq_descend (line : Line.Parsed) (occ : Occurrence) (children : List Node)
    (token : Nat) (last : Bool) (memory : Memory) :
    attempt line (.sequence occ children) token last memory =
      descend line.words.length last (children.map (slotOf line)) token memory := by
  rw [attempt_sequence, allOf_eq_descend]

end Match

end Synopsis
