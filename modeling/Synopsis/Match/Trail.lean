/-
Synopsis.Match.Trail — what a match has recorded so far.

A trail lists the captures and the flags admitted in the order in which they were
made. A mark remembers how long both lists are, and cutting the trail back to a
mark forgets what was added since.
-/
import Synopsis.Text.Basic

namespace Synopsis

/-- A key and the text bound to it; a flag may be bound without one. -/
abbrev Capture := Text × Option Text

namespace Match

/-- What has been recorded. -/
structure Trail where
  captures : List Capture := []
  admitted : List Text := []
deriving DecidableEq

/-- How long a trail was. -/
structure Mark where
  captures : Nat
  admitted : Nat
deriving DecidableEq

namespace Trail

def capture (trail : Trail) (key value : Text) : Trail :=
  { trail with captures := trail.captures ++ [(key, some value)] }

def allow (trail : Trail) (key : Text) : Trail :=
  { trail with admitted := trail.admitted ++ [key] }

def mark (trail : Trail) : Mark := ⟨trail.captures.length, trail.admitted.length⟩

def cutTo (trail : Trail) (mark : Mark) : Trail :=
  ⟨trail.captures.take mark.captures, trail.admitted.take mark.admitted⟩

@[simp] theorem cutTo_mark (trail : Trail) : trail.cutTo trail.mark = trail := by
  simp [cutTo, mark]

/-- The trail goes on from another one. -/
def Extends (trail earlier : Trail) : Prop :=
  earlier.captures <+: trail.captures ∧ earlier.admitted <+: trail.admitted

theorem Extends.refl (trail : Trail) : trail.Extends trail :=
  ⟨List.prefix_refl _, List.prefix_refl _⟩

theorem Extends.trans {a b c : Trail} (hab : a.Extends b) (hbc : b.Extends c) : a.Extends c :=
  ⟨hbc.1.trans hab.1, hbc.2.trans hab.2⟩

theorem extends_capture (trail : Trail) (key value : Text) :
    (trail.capture key value).Extends trail :=
  ⟨List.prefix_append _ _, List.prefix_refl _⟩

theorem extends_allow (trail : Trail) (key : Text) : (trail.allow key).Extends trail :=
  ⟨List.prefix_refl _, List.prefix_append _ _⟩

/-- What was added since a mark was taken is what cutting back forgets. -/
theorem Extends.cutTo_mark {trail earlier : Trail} (h : trail.Extends earlier) :
    trail.cutTo earlier.mark = earlier := by
  cases earlier
  simp only [cutTo, mark, Trail.mk.injEq]
  exact ⟨(List.prefix_iff_eq_take.1 h.1).symm, (List.prefix_iff_eq_take.1 h.2).symm⟩

end Trail

end Match

end Synopsis
