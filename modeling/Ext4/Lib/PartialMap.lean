import Mathlib.Data.List.Basic
import Mathlib.Tactic.Common

/-!
# Families of partial maps with losses

A cache over several files is a family of partial maps from points to
values. A cache may forget: `Kept` says which points must have kept their
value, and what a loss may be when the circumstances allow one. `Agrees`
compares a cache with a record of what was last put into it.
-/

namespace PartialMap

/-- One partial map for every index. -/
abbrev Family (ι β : Type*) := ι → Nat → Option β

variable {ι β : Type*}

section Edits

variable [DecidableEq ι]

/-- Take the points `[lo, hi)` out of the map at `i`. -/
def erase (m : Family ι β) (i : ι) (lo hi : Nat) : Family ι β :=
  fun j b => if j = i ∧ lo ≤ b ∧ b < hi then none else m j b

/-- Give the points `[lo, hi)` of the map at `i` new values. -/
def override (m : Family ι β) (i : ι) (lo hi : Nat) (f : Nat → β) : Family ι β :=
  fun j b => if j = i ∧ lo ≤ b ∧ b < hi then some (f b) else m j b

variable {m : Family ι β} {i j : ι} {lo hi b : Nat} {f : Nat → β}

theorem erase_in (h : j = i ∧ lo ≤ b ∧ b < hi) : erase m i lo hi j b = none := if_pos h

theorem erase_out (h : ¬ (j = i ∧ lo ≤ b ∧ b < hi)) : erase m i lo hi j b = m j b := if_neg h

theorem override_in (h : j = i ∧ lo ≤ b ∧ b < hi) : override m i lo hi f j b = some (f b) :=
  if_pos h

theorem override_out (h : ¬ (j = i ∧ lo ≤ b ∧ b < hi)) : override m i lo hi f j b = m j b :=
  if_neg h

end Edits

/-- Every point of `dom` has the value it had; a value that is not pinned
may be gone instead, when `lossy`. -/
def Kept (pinned : β → Bool) (lossy : Prop) (dom : ι → Nat → Prop) (m m' : Family ι β) : Prop :=
  ∀ j b, dom j b →
    m' j b = m j b ∨ (lossy ∧ m' j b = none ∧ ∀ v, m j b = some v → pinned v = false)

namespace Kept

variable {pinned : β → Bool} {lossy lossy' : Prop} {dom dom' : ι → Nat → Prop}
  {m m' m'' : Family ι β}

theorem refl (m : Family ι β) : Kept pinned lossy dom m m := fun _ _ _ => .inl rfl

theorem of_eq (h : ∀ j b, dom j b → m' j b = m j b) : Kept pinned lossy dom m m' :=
  fun j b hd => .inl (h j b hd)

variable {b : Nat} {j : ι}

section

variable (h : Kept pinned lossy dom m m')

include h

theorem trans (h' : Kept pinned lossy dom m' m'') : Kept pinned lossy dom m m'' := by
  intro j b hd
  rcases h j b hd with h1 | ⟨hl, h1, hp⟩ <;> rcases h' j b hd with h2 | ⟨hl', h2, hp'⟩
  · exact .inl (h2.trans h1)
  · exact .inr ⟨hl', h2, fun v hv => hp' v (h1.trans hv)⟩
  · exact .inr ⟨hl, h2.trans h1, hp⟩
  · exact .inr ⟨hl, h2, hp⟩

theorem weaken (hl : lossy → lossy') (hd : ∀ j b, dom' j b → dom j b) :
    Kept pinned lossy' dom' m m' := by
  intro j b hb
  rcases h j b (hd j b hb) with h1 | ⟨h1, h2, h3⟩
  · exact .inl h1
  · exact .inr ⟨hl h1, h2, h3⟩

theorem eq_or_none (hd : dom j b) : m' j b = m j b ∨ m' j b = none := by
  rcases h j b hd with h1 | ⟨_, h1, _⟩
  · exact .inl h1
  · exact .inr h1

theorem eq_none (hd : dom j b) (hm : m j b = none) : m' j b = none := by
  rcases h.eq_or_none hd with h1 | h1
  · rw [h1, hm]
  · exact h1

end

end Kept

/-- Every value the cache holds is the one last put there. -/
def Agrees (m last : Family ι β) : Prop := ∀ j b v, m j b = some v → last j b = some v

namespace Agrees

variable {m m' last : Family ι β}

theorem of_eq_or_none (h : Agrees m last) (hm : ∀ j b, m' j b = m j b ∨ m' j b = none) :
    Agrees m' last := by
  intro j b v hv
  rcases hm j b with h1 | h1
  · exact h j b v (h1 ▸ hv)
  · rw [h1] at hv
    cases hv

/-- A range that has the new values or none, under a record of the new ones. -/
theorem override [DecidableEq ι] (h : Agrees m last) {i : ι} {lo hi : Nat} {f : Nat → β}
    (hin : ∀ b, lo ≤ b ∧ b < hi → m' i b = some (f b) ∨ m' i b = none)
    (hout : ∀ j b, ¬ (j = i ∧ lo ≤ b ∧ b < hi) → m' j b = m j b ∨ m' j b = none) :
    Agrees m' (PartialMap.override last i lo hi f) := by
  intro j b v hv
  by_cases hr : j = i ∧ lo ≤ b ∧ b < hi
  · rw [override_in hr]
    obtain ⟨rfl, hb⟩ := hr
    rcases hin b hb with h1 | h1
    · exact h1 ▸ hv
    · cases h1.symm.trans hv
  · rw [override_out hr]
    rcases hout j b hr with h1 | h1
    · exact h j b v (h1 ▸ hv)
    · rw [h1] at hv
      cases hv

end Agrees

end PartialMap
