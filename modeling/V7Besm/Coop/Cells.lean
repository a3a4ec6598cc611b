import Mathlib.Logic.Function.Basic

/-!
Tables whose cells name the process that may change them.

`Sole` ties the ghost value of a process to such a table: the process knows which cell is
its own, and what stands in it.
-/

namespace V7Besm.Coop

open Function

variable {π ι α : Type} {f : ι → α} {own : α → Option π} {p : π} {o : Option (ι × α)} {i : ι}
  {a a' : α}

/-- `o` is the cell of `p`, if it has one. -/
def Sole (f : ι → α) (own : α → Option π) (p : π) (o : Option (ι × α)) : Prop :=
  ∀ i a, o = some (i, a) ↔ f i = a ∧ own a = some p

namespace Sole

theorem eq (h : Sole f own p (some (i, a))) : f i = a := ((h i a).mp rfl).1

theorem owned (h : Sole f own p (some (i, a))) : own a = some p := ((h i a).mp rfl).2

theorem free (h : Sole f own p none) (i : ι) : own (f i) ≠ some p :=
  fun mine => nomatch (h i (f i)).mpr ⟨rfl, mine⟩

variable [DecidableEq ι]

/-- A cell of somebody else, before and after, is none of `p`'s business. -/
theorem skip (h : Sole f own p o) (before : own (f i) ≠ some p) (after : own a' ≠ some p) :
    Sole (update f i a') own p o := by
  intro j b
  rw [h j b]
  by_cases e : j = i
  · subst e
    rw [update_self]
    constructor
    · rintro ⟨rfl, mine⟩
      exact absurd mine before
    · rintro ⟨rfl, mine⟩
      exact absurd mine after
  · rw [update_of_ne e]

theorem put (h : Sole f own p o) (at_i : o = none ∨ ∃ a, o = some (i, a)) (mine : own a' = some p) :
    Sole (update f i a') own p (some (i, a')) := by
  intro j b
  by_cases e : j = i
  · subst e
    rw [update_self]
    constructor
    · rintro ⟨⟩
      exact ⟨rfl, mine⟩
    · rintro ⟨rfl, -⟩
      rfl
  · rw [update_of_ne e]
    constructor
    · rintro ⟨⟩
      exact absurd rfl e
    · rintro ⟨eq, owned⟩
      have this := (h j b).mpr ⟨eq, owned⟩
      rcases at_i with rfl | ⟨a, rfl⟩
      · cases this
      · cases this
        exact absurd rfl e

theorem drop (h : Sole f own p (some (i, a))) (after : own a' ≠ some p) :
    Sole (update f i a') own p none := by
  intro j b
  constructor
  · rintro ⟨⟩
  rintro ⟨eq, owned⟩
  by_cases e : j = i
  · subst e
    rw [update_self] at eq
    subst eq
    exact absurd owned after
  · rw [update_of_ne e] at eq
    cases (h j b).mpr ⟨eq, owned⟩
    exact absurd rfl e

end Sole

/-- A part of a cell that a change leaves alone, seen from all cells. -/
theorem proj_update [DecidableEq ι] {β : Type} (part : α → β) (same : part a' = part (f i)) (j : ι) :
    part (update f i a' j) = part (f j) := by
  by_cases e : j = i
  · subst e
    rw [update_self, same]
  · rw [update_of_ne e]

end V7Besm.Coop
