import Mathlib.Logic.Basic

/-!
Loops that need not end.

A loop is given by its turn, which either goes on with a new state or returns. `run`
makes a bounded number of turns; the loop `Returns r` if some number of turns is
enough. A turn that goes on changes nothing about whether and what the loop returns,
so a run is followed turn by turn, and a loop whose turns keep going on from states
with an invariant never returns.
-/

namespace V7Besm.Spin

variable {σ ρ : Type} {turn : σ → σ ⊕ ρ} {s s' : σ} {r r' : ρ}

/-- At most `fuel` turns. -/
def run (turn : σ → σ ⊕ ρ) : Nat → σ → Option ρ
  | 0, _ => none
  | fuel + 1, s =>
    match turn s with
    | .inl s' => run turn fuel s'
    | .inr r => some r

/-- The loop from `s` ends with `r`. -/
def Returns (turn : σ → σ ⊕ ρ) (s : σ) (r : ρ) : Prop := ∃ fuel, run turn fuel s = some r

theorem returns_of_inr (last : turn s = .inr r) : Returns turn s r := ⟨1, by simp [run, last]⟩

theorem returns_iff_of_inl (next : turn s = .inl s') : Returns turn s r ↔ Returns turn s' r := by
  constructor
  · rintro ⟨fuel, ends⟩
    cases fuel with
    | zero => cases ends
    | succ fuel => exact ⟨fuel, by simpa [run, next] using ends⟩
  · rintro ⟨fuel, ends⟩
    exact ⟨fuel + 1, by simpa [run, next] using ends⟩

theorem returns_iff_of_inr (last : turn s = .inr r) : Returns turn s r' ↔ r' = r := by
  constructor
  · rintro ⟨fuel, ends⟩
    cases fuel with
    | zero => cases ends
    | succ fuel =>
      rw [run, last] at ends
      exact (Option.some.inj ends).symm
  · rintro rfl
    exact returns_of_inr last

theorem Returns.unique (first : Returns turn s r) (second : Returns turn s r') : r = r' := by
  obtain ⟨fuel, ends⟩ := first
  induction fuel generalizing s with
  | zero => cases ends
  | succ fuel ih =>
    cases step : turn s with
    | inl s' =>
      rw [run, step] at ends
      exact ih ((returns_iff_of_inl step).mp second) ends
    | inr last =>
      rw [run, step] at ends
      rw [(returns_iff_of_inr step).mp second]
      exact (Option.some.inj ends).symm

/-- No turn from a state of the invariant returns, so the loop does not. -/
theorem not_returns_of_invariant {I : σ → Prop} (holds : I s)
    (goes_on : ∀ s, I s → ∃ s', turn s = .inl s' ∧ I s') : ¬ Returns turn s r := by
  rintro ⟨fuel, ends⟩
  induction fuel generalizing s with
  | zero => cases ends
  | succ fuel ih =>
    obtain ⟨s', step, holds'⟩ := goes_on s holds
    rw [run, step] at ends
    exact ih holds' ends

end V7Besm.Spin
