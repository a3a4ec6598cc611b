import Mathlib.Logic.Basic

/-!
Taking out of a store until nothing is left.

`pop` returns the next element and the store behind it, or nothing. `Drains` is a
number of calls in a row that all succeed. How far they go is settled by the store; an
invariant that says what is left says what they return.
-/

namespace V7Besm.Spin

variable {σ α : Type} {pop : σ → Option (α × σ)} {s s' s'' : σ} {l m : List α}

/-- Calls in a row return the elements `l`. -/
inductive Drains (pop : σ → Option (α × σ)) : σ → List α → σ → Prop where
  | nil {s : σ} : Drains pop s [] s
  | cons {s s' s'' : σ} {a : α} {l : List α} : pop s = some (a, s') → Drains pop s' l s'' →
      Drains pop s (a :: l) s''

theorem Drains.unique (first : Drains pop s l s') (empty : pop s' = none)
    (second : Drains pop s m s'') (empty' : pop s'' = none) : l = m := by
  induction first generalizing m with
  | nil =>
    cases second with
    | nil => rfl
    | cons next _ =>
      rw [empty] at next
      cases next
  | cons next _ ih =>
    cases second with
    | nil =>
      rw [empty'] at next
      cases next
    | cons next' rest =>
      rw [next] at next'
      cases next'
      rw [ih empty rest]

/-- What is left is what comes out. -/
theorem drains_of_invariant {I : σ → List α → Prop}
    (step : ∀ s a l, I s (a :: l) → ∃ s', pop s = some (a, s') ∧ I s' l) (start : I s l) :
    ∃ s', Drains pop s l s' ∧ I s' [] := by
  induction l generalizing s with
  | nil => exact ⟨s, .nil, start⟩
  | cons a l ih =>
    obtain ⟨s₁, next, rest⟩ := step s a l start
    obtain ⟨s', drains, empty⟩ := ih rest
    exact ⟨s', .cons next drains, empty⟩

/-- So a run to the end is as `P` wants it just when what is left is. -/
theorem drains_iff_of_invariant {I : σ → List α → Prop} {E : σ → Prop} {P : List α → Prop}
    (step : ∀ s a l, I s (a :: l) → ∃ s', pop s = some (a, s') ∧ I s' l)
    (stop : ∀ s, I s [] → E s) (ends : ∀ s, E s → pop s = none) (start : I s l) :
    (∃ m s', Drains pop s m s' ∧ E s' ∧ P m) ↔ P l := by
  obtain ⟨s', drains, empty⟩ := drains_of_invariant step start
  constructor
  · rintro ⟨m, s'', drains', ended, holds⟩
    rwa [drains.unique (ends _ (stop _ empty)) drains' (ends _ ended)]
  · exact fun holds => ⟨l, s', drains, stop _ empty, holds⟩

end V7Besm.Spin
