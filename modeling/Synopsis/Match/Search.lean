/-
Synopsis.Match.Search — matching the members of a group.

A choice takes the first alternative that matches. A sequence matches its slots
from left to right, and each as often as it can; when a slot fails, the search
goes back to the last decision it can take differently. There are two kinds of
such decisions: a repeated slot may occur once less often, and an optional
positional slot may be left out altogether. A search puts its decisions on the
stack that is remembered, on top of those that were there when it began, and it
takes back none of these.

`step` goes on by one slot or back by one decision. Each step makes the number
smaller that `load` gives for the search (`load_lt_of_step`): it counts what is
still to be tried, for the slots from the current one on and for each decision. So
the search ends, and it leaves the stack as it was (`stack_run`).
-/
import Synopsis.Match.Slot

namespace Synopsis

namespace Match

/-! ## §1 Choices -/

/-- The first of the slots that matches; what the others recorded is forgotten. -/
def firstOf (total token : Nat) (last : Bool) (memory : Memory) : List Slot → Attempt × Memory
  | [] => (.refused, memory)
  | slot :: slots =>
    match slot.process total token last none memory with
    | (.reached next _, memory) => (.upTo next, memory)
    | (.fault fault, memory) => (.fault fault, memory)
    | (.failed, after) => firstOf total token last (after.cutTo memory.trail.mark) slots

theorem stack_firstOf (total token : Nat) (last : Bool) (memory : Memory) (slots : List Slot) :
    (firstOf total token last memory slots).2.stack = memory.stack := by
  induction slots generalizing memory with
  | nil => rfl
  | cons slot slots ih =>
    have h := slot.stack_process total token last none memory
    unfold firstOf
    split
    · simp_all
    · simp_all
    · rename_i after hprocess
      rw [ih, Memory.stack_cutTo]
      simpa [hprocess] using h

/-! ## §2 The state of a search -/

/-- A search in a sequence. The slots before `slot` have taken the words before `token`;
`leftOut` are the slots that are left out, and `caps` limits the repetition of some. -/
structure Search where
  slot : Nat
  token : Nat
  leftOut : List Nat
  caps : List (Nat × Nat)
  memory : Memory

/-- What becomes of a search. -/
inductive Move where
  | next (search : Search)
  | stop (attempt : Attempt) (memory : Memory)

namespace Search

def start (token : Nat) (memory : Memory) : Search := ⟨0, token, [], [], memory⟩

def cap (search : Search) : Option Nat := search.caps.lookup search.slot

/-- Taking up a decision: slots from its own on have no other limits. -/
def resume (caps : List (Nat × Nat)) (trail : Trail) (stack : List Retry) (retry : Retry) :
    Search :=
  let kept := caps.filter fun (slot, _) => slot < retry.slot
  { slot := retry.slot
    token := retry.token
    leftOut := retry.leftOut
    caps := match retry.cap with
      | some limit => (retry.slot, limit) :: kept
      | none => kept
    memory := ⟨trail.cutTo retry.mark, stack⟩ }

/-- Going back to the last decision that was made since the beginning. If there is none the
sequence does not match, and all that was recorded since then is forgotten. -/
def back (beginning : Memory) (caps : List (Nat × Nat)) (memory : Memory) : Move :=
  match memory.stack with
  | [] => .stop .refused (memory.cutTo beginning.trail.mark)
  | retry :: stack =>
    if beginning.stack.length ≤ stack.length then .next (resume caps memory.trail stack retry)
    else .stop .refused (memory.cutTo beginning.trail.mark)

/-- Whether the current slot may be left out later. A slot with a limit was not left out before,
and this is not asked again. -/
def mayLeaveOut (slot : Slot) (cap : Option Nat) : Option Bool :=
  if slot.occ.optional then slot.positional?.map (· && cap.isNone) else some false

def withOmission (search : Search) (leave : Bool) : Memory :=
  if leave then
    { search.memory with
      stack :=
        ⟨search.slot, search.token, search.memory.trail.mark, search.slot :: search.leftOut, none⟩
          :: search.memory.stack }
  else search.memory

/-- What is remembered after the current slot was matched, with the decision to repeat it less
often than `count` times. -/
def withReduction (search : Search) (count : Nat) (after : Memory) : Memory :=
  if 1 < count then
    { after with
      stack :=
        ⟨search.slot, search.token, search.memory.trail.mark, search.leftOut, some (count - 1)⟩
          :: after.stack }
  else after

def advance (search : Search) (token : Nat) (memory : Memory) : Search :=
  { search with slot := search.slot + 1, token := token, memory := memory }

/-- One slot further, or one decision back. A sequence that is at its end drops its decisions. -/
def step (slots : List Slot) (total : Nat) (last : Bool) (beginning : Memory) (search : Search) :
    Move :=
  let height := beginning.stack.length
  match slots[search.slot]? with
  | none => .stop (.upTo search.token) (search.memory.dropTo height)
  | some slot =>
    if search.slot ∈ search.leftOut then .next { search with slot := search.slot + 1 }
    else
      match mayLeaveOut slot search.cap with
      | none => .stop (.fault .undetermined) (search.memory.dropTo height)
      | some leave =>
        let isLast := last && search.slot + 1 == slots.length
        match slot.process total search.token isLast search.cap (search.withOmission leave) with
        | (.fault fault, after) => .stop (.fault fault) (after.dropTo height)
        | (.failed, after) => back beginning search.caps after
        | (.reached token count, after) =>
          .next (search.advance token (search.withReduction count after))

/-! ## §3 What is still to be tried -/

/-- A bound on the steps for a sequence of the given number of slots. Each slot is tried without
a limit, with each limit up to the number of words, and left out. -/
def weight (total : Nat) : Nat → Nat
  | 0 => 0
  | slots + 1 => (total + 3) * (weight total slots + 1)

/-- A bound on the steps from a slot on, `slots` being the number of all. -/
def share (total slots slot : Nat) (isLeftOut : Bool) (cap : Option Nat) : Nat :=
  if slots ≤ slot then 0
  else
    let each := weight total (slots - slot - 1) + 1
    if isLeftOut then each
    else
      match cap with
      | some limit => (min limit (total + 1) + 1) * each
      | none => (total + 3) * each

namespace Retry

def share (total slots : Nat) (retry : Retry) : Nat :=
  Search.share total slots retry.slot (retry.leftOut.contains retry.slot) retry.cap

end Retry

def stackLoad (total slots : Nat) : List Retry → Nat
  | [] => 0
  | retry :: stack => Retry.share total slots retry + stackLoad total slots stack

/-- A bound on the steps of a search. -/
def load (total slots : Nat) (search : Search) : Nat :=
  share total slots search.slot (search.leftOut.contains search.slot) search.cap +
    stackLoad total slots search.memory.stack

theorem share_le_weight (total slots slot : Nat) (isLeftOut : Bool) (cap : Option Nat) :
    share total slots slot isLeftOut cap ≤ weight total (slots - slot) := by
  unfold share
  split
  · exact Nat.zero_le _
  · obtain ⟨rest, hrest⟩ : ∃ rest, slots - slot = rest + 1 := ⟨slots - slot - 1, by omega⟩
    simp only [hrest, Nat.add_sub_cancel, weight]
    split
    · exact Nat.le_mul_of_pos_left _ (by omega)
    · split
      · exact Nat.mul_le_mul_right _ (by omega)
      · exact Nat.le_refl _

/-- Behind a slot there is less to try than at it, by one. -/
theorem share_succ_lt (total slots slot : Nat) (isLeftOut : Bool) (cap : Option Nat) :
    share total slots (slot + 1) isLeftOut cap < weight total (slots - slot - 1) + 1 := by
  have := share_le_weight total slots (slot + 1) isLeftOut cap
  rw [show slots - (slot + 1) = slots - slot - 1 by omega] at this
  omega

theorem lookup_filter_lt (caps : List (Nat × Nat)) (slot : Nat) :
    (caps.filter fun (other, _) => other < slot).lookup slot = none := by
  induction caps with
  | nil => rfl
  | cons entry caps ih =>
    obtain ⟨other, limit⟩ := entry
    by_cases h : other < slot
    · have hne : (slot == other) = false := by simp; omega
      simp [h, List.lookup_cons, hne, ih]
    · simpa [List.filter_cons, h] using ih

theorem cap_resume (caps : List (Nat × Nat)) (trail : Trail) (stack : List Retry) (retry : Retry) :
    (resume caps trail stack retry).cap = retry.cap := by
  unfold resume Search.cap
  cases retry.cap with
  | none => exact lookup_filter_lt caps retry.slot
  | some limit => simp

/-- Taking up a decision takes it off the stack. -/
theorem load_of_back {total slots : Nat} {beginning memory : Memory} {caps : List (Nat × Nat)}
    {search : Search} (h : back beginning caps memory = .next search) :
    search.load total slots = stackLoad total slots memory.stack := by
  unfold back at h
  split at h
  · cases h
  · rename_i retry stack hstack
    split at h
    · cases h
      unfold load
      rw [cap_resume, hstack]
      simp [resume, stackLoad, Retry.share]
    · cases h

theorem stackLoad_withOmission_le (total slots : Nat) (search : Search) (leave : Bool) :
    stackLoad total slots (search.withOmission leave).stack ≤
      (if leave then weight total (slots - search.slot - 1) + 1 else 0) +
        stackLoad total slots search.memory.stack := by
  unfold withOmission
  split
  · simp only [stackLoad]
    apply Nat.add_le_add_right
    simp only [Retry.share, share]
    split
    · exact Nat.zero_le _
    · simp
  · exact Nat.le_add_left _ _

theorem stackLoad_withReduction_le (total slots count : Nat) (search : Search) (after : Memory) :
    stackLoad total slots (search.withReduction count after).stack ≤
      (if 1 < count then min count (total + 2) * (weight total (slots - search.slot - 1) + 1)
        else 0) + stackLoad total slots after.stack := by
  unfold withReduction
  split
  · simp only [stackLoad]
    apply Nat.add_le_add_right
    simp only [Retry.share, share]
    split
    · exact Nat.zero_le _
    · split
      · exact Nat.le_mul_of_pos_left _ (by omega)
      · exact Nat.mul_le_mul_right _ (by omega)
  · exact Nat.le_add_left _ _

theorem share_of_mem {total slots slot : Nat} {cap : Option Nat} (hslot : slot < slots) :
    share total slots slot true cap = weight total (slots - slot - 1) + 1 := by
  simp [share, Nat.not_le.2 hslot]

theorem share_of_no_cap {total slots slot : Nat} (hslot : slot < slots) :
    share total slots slot false none = (total + 3) * (weight total (slots - slot - 1) + 1) := by
  simp [share, Nat.not_le.2 hslot]

theorem share_of_cap {total slots slot limit : Nat} (hslot : slot < slots) :
    share total slots slot false (some limit) =
      (min limit (total + 1) + 1) * (weight total (slots - slot - 1) + 1) := by
  simp [share, Nat.not_le.2 hslot]

/-- Only a slot without a limit is left out later. -/
theorem cap_of_mayLeaveOut {slot : Slot} {cap : Option Nat} (h : mayLeaveOut slot cap = some true) :
    cap = none := by
  unfold mayLeaveOut at h
  split at h
  · obtain ⟨positional, -, hboth⟩ := Option.map_eq_some_iff.mp h
    simpa using (Bool.and_eq_true_iff.mp hboth).2
  · cases h

/-- A slot that was left out has its share, and what is behind it has less. -/
theorem load_skip_lt {total slots : Nat} {search : Search} (hslot : search.slot < slots)
    (hleft : search.slot ∈ search.leftOut) :
    ({ search with slot := search.slot + 1 } : Search).load total slots <
      search.load total slots := by
  have hin : search.leftOut.contains search.slot = true := by simpa using hleft
  have hnext := share_succ_lt total slots search.slot
    (search.leftOut.contains (search.slot + 1))
    ({ search with slot := search.slot + 1 } : Search).cap
  unfold load
  rw [hin, share_of_mem hslot]
  simp only at hnext ⊢
  omega

/-- The decision to leave out a slot has less to try than the slot. -/
theorem stackLoad_withOmission_lt {total slots : Nat} {search : Search} {leave : Bool}
    (hslot : search.slot < slots) (hleft : search.slot ∉ search.leftOut)
    (hleave : leave = true → search.cap = none) :
    stackLoad total slots (search.withOmission leave).stack < search.load total slots := by
  have homitted := stackLoad_withOmission_le total slots search leave
  have hnot : search.leftOut.contains search.slot = false := by simpa using hleft
  have hless : (if leave = true then weight total (slots - search.slot - 1) + 1 else 0) <
      share total slots search.slot false search.cap := by
    split
    · rename_i hleave'
      rw [hleave hleave', share_of_no_cap hslot]
      have := Nat.mul_le_mul_right (weight total (slots - search.slot - 1) + 1)
        (show 2 ≤ total + 3 by omega)
      omega
    · cases search.cap with
      | none =>
        rw [share_of_no_cap hslot]
        exact Nat.mul_pos (by omega) (by omega)
      | some limit =>
        rw [share_of_cap hslot]
        exact Nat.mul_pos (by omega) (by omega)
  unfold load
  rw [hnot]
  omega

/-- A slot has a share for what comes behind it, for the decision to leave it out and for the one
to repeat it less often. -/
theorem sum_le_share {total slots slot count : Nat} {cap : Option Nat} {leave : Bool}
    (hslot : slot < slots) (hleave : leave = true → cap = none)
    (hcount : count ≤ 1 ∨ (count ≤ total + 1 ∧ ∀ k, cap = some k → count ≤ k)) :
    let each := weight total (slots - slot - 1) + 1
    each + (if leave then each else 0) +
        (if 1 < count then min count (total + 2) * each else 0) ≤
      share total slots slot false cap := by
  intro each
  cases cap with
  | none =>
    have hreduced : (if 1 < count then min count (total + 2) * each else 0) ≤
        (total + 1) * each := by
      split
      · exact Nat.mul_le_mul_right _ (by omega)
      · exact Nat.zero_le _
    have homitted : (if leave then each else 0) ≤ each := by split <;> omega
    calc each + (if leave then each else 0) +
          (if 1 < count then min count (total + 2) * each else 0)
        ≤ each + each + (total + 1) * each := by omega
      _ = (total + 3) * each := by simp only [Nat.add_mul]; omega
      _ = share total slots slot false none := (share_of_no_cap hslot).symm
  | some limit =>
    have hreduced : (if 1 < count then min count (total + 2) * each else 0) ≤
        min limit (total + 1) * each := by
      split
      · have hlimit := (hcount.resolve_left (by omega)).2 limit rfl
        exact Nat.mul_le_mul_right _ (by omega)
      · exact Nat.zero_le _
    have homitted : (if leave then each else 0) = 0 :=
      if_neg fun hleave' => by cases hleave hleave'
    calc each + (if leave then each else 0) +
          (if 1 < count then min count (total + 2) * each else 0)
        ≤ min limit (total + 1) * each + each := by omega
      _ = (min limit (total + 1) + 1) * each := by simp only [Nat.add_mul]; omega
      _ = share total slots slot false (some limit) := (share_of_cap hslot).symm

/-- A slot that is matched leaves less to try: what comes behind it, and the decisions about
it. -/
theorem load_advance_lt {total slots count token : Nat} {search : Search} {leave : Bool}
    {after : Memory} (hslot : search.slot < slots) (hleft : search.slot ∉ search.leftOut)
    (hleave : leave = true → search.cap = none)
    (hcount : count ≤ 1 ∨ (count ≤ total + 1 ∧ ∀ k, search.cap = some k → count ≤ k))
    (hafter : after.stack = (search.withOmission leave).stack) :
    (search.advance token (search.withReduction count after)).load total slots <
      search.load total slots := by
  have hnext := share_succ_lt total slots search.slot
    (search.leftOut.contains (search.slot + 1))
    (search.advance token (search.withReduction count after)).cap
  have hreduced := stackLoad_withReduction_le total slots count search after
  have homitted := stackLoad_withOmission_le total slots search leave
  have hshare := sum_le_share hslot hleave hcount
  have hnot : search.leftOut.contains search.slot = false := by simpa using hleft
  rw [hafter] at hreduced
  unfold load
  rw [hnot]
  simp only [advance] at hnext hshare ⊢
  omega

/-- Every step leaves less to try. -/
theorem load_lt_of_step {slots : List Slot} {total : Nat} {last : Bool} {beginning : Memory}
    {search after : Search} (h : step slots total last beginning search = .next after) :
    after.load total slots.length < search.load total slots.length := by
  unfold step at h
  simp only at h
  split at h
  · cases h
  · rename_i slot hslot
    have hlt : search.slot < slots.length := (List.getElem?_eq_some_iff.1 hslot).1
    split at h
    · rename_i hleft
      cases h
      exact load_skip_lt hlt hleft
    · rename_i hleft
      split at h
      · cases h
      · rename_i leave hleave
        have hcap : leave = true → search.cap = none := by
          rintro rfl
          exact cap_of_mayLeaveOut hleave
        have hstack := slot.stack_process total search.token
          (last && search.slot + 1 == slots.length) search.cap (search.withOmission leave)
        split at h <;> rename_i hprocess
        · cases h
        · rw [hprocess] at hstack
          rw [load_of_back h, hstack]
          exact stackLoad_withOmission_lt hlt hleft hcap
        · rw [hprocess] at hstack
          cases h
          exact load_advance_lt hlt hleft hcap (Slot.count_le_of_process hprocess) hstack

/-! ## §4 Sequences -/

def run (slots : List Slot) (total : Nat) (last : Bool) (beginning : Memory) (search : Search) :
    Attempt × Memory :=
  match _hstep : step slots total last beginning search with
  | .stop attempt memory => (attempt, memory)
  | .next after => run slots total last beginning after
termination_by search.load total slots.length
decreasing_by exact load_lt_of_step _hstep

def follow (slots : List Slot) (total : Nat) (last : Bool) (beginning : Memory) :
    Move → Attempt × Memory
  | .next search => run slots total last beginning search
  | .stop attempt memory => (attempt, memory)

theorem run_eq_follow (slots : List Slot) (total : Nat) (last : Bool) (beginning : Memory)
    (search : Search) :
    run slots total last beginning search =
      follow slots total last beginning (step slots total last beginning search) := by
  rw [run]
  split <;> rename_i hstep <;> rw [hstep] <;> rfl

/-! ## §5 What is left of the stack -/

theorem suffix_withOmission (search : Search) (leave : Bool) :
    search.memory.stack <:+ (search.withOmission leave).stack := by
  unfold withOmission
  split
  · exact List.suffix_cons _ _
  · exact List.suffix_refl _

theorem suffix_withReduction (search : Search) (count : Nat) (after : Memory) :
    after.stack <:+ (search.withReduction count after).stack := by
  unfold withReduction
  split
  · exact List.suffix_cons _ _
  · exact List.suffix_refl _

/-- A move that goes on keeps the decisions of the given stack, and one that ends the search
leaves just these. -/
def Keeps (stack : List Retry) : Move → Prop
  | .next search => stack <:+ search.memory.stack
  | .stop _ after => after.stack = stack

/-- Going back takes no decision that was there at the beginning. -/
theorem keeps_back {beginning memory : Memory} {caps : List (Nat × Nat)}
    (h : beginning.stack <:+ memory.stack) :
    Keeps beginning.stack (back beginning caps memory) := by
  unfold back
  split
  · rename_i hstack
    rw [hstack] at h
    exact hstack.trans (List.suffix_nil.mp h).symm
  · rename_i retry stack hstack
    rw [hstack] at h
    rcases List.suffix_cons_iff.mp h with heq | hsuffix
    · have hheight : ¬ beginning.stack.length ≤ stack.length := by
        rw [heq, List.length_cons]; omega
      rw [if_neg hheight]
      exact hstack.trans heq.symm
    · rw [if_pos hsuffix.length_le]
      exact hsuffix

/-- A step keeps the decisions that were there at the beginning. -/
theorem keeps_step (slots : List Slot) (total : Nat) (last : Bool) {beginning : Memory}
    {search : Search} (h : beginning.stack <:+ search.memory.stack) :
    Keeps beginning.stack (step slots total last beginning search) := by
  unfold step
  simp only
  cases slots[search.slot]? with
  | none => exact Memory.stack_dropTo h
  | some slot =>
    simp only
    split
    · exact h
    · cases mayLeaveOut slot search.cap with
      | none => exact Memory.stack_dropTo h
      | some leave =>
        have hstack := slot.stack_process total search.token
          (last && search.slot + 1 == slots.length) search.cap (search.withOmission leave)
        have homitted := h.trans (search.suffix_withOmission leave)
        rw [← hstack] at homitted
        simp only
        split <;> rename_i hprocess <;> rw [hprocess] at homitted
        · exact Memory.stack_dropTo homitted
        · exact keeps_back homitted
        · exact homitted.trans (search.suffix_withReduction _ _)

theorem stack_run {slots : List Slot} {total : Nat} {last : Bool} {beginning : Memory}
    {search : Search} (h : beginning.stack <:+ search.memory.stack) :
    (run slots total last beginning search).2.stack = beginning.stack := by
  induction search using run.induct slots total last beginning with
  | case1 search attempt memory hstep =>
    have hkeeps := keeps_step slots total last h
    rw [hstep] at hkeeps
    rw [run_eq_follow, hstep]
    exact hkeeps
  | case2 search after hstep ih =>
    have hkeeps := keeps_step slots total last h
    rw [hstep] at hkeeps
    rw [run_eq_follow, hstep]
    exact ih hkeeps

end Search

def allOf (total token : Nat) (last : Bool) (memory : Memory) (slots : List Slot) :
    Attempt × Memory :=
  Search.run slots total last memory (.start token memory)

theorem stack_allOf (total token : Nat) (last : Bool) (memory : Memory) (slots : List Slot) :
    (allOf total token last memory slots).2.stack = memory.stack :=
  Search.stack_run (List.suffix_refl _)

namespace Matcher

def choice (total : Nat) (slots : List Slot) : Matcher where
  attempt token last memory := firstOf total token last memory slots
  stack_attempt token last memory := stack_firstOf total token last memory slots

def sequence (total : Nat) (slots : List Slot) : Matcher where
  attempt token last memory := allOf total token last memory slots
  stack_attempt token last memory := stack_allOf total token last memory slots

end Matcher

end Match

end Synopsis
