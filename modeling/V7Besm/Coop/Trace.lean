import Mathlib.Data.List.Basic

/-!
Runs of a partial step function over a list of operations.
-/

namespace V7Besm.Coop

variable {σ ο : Type*} {step : σ → ο → Option σ} {inv : σ → Prop} {s s' : σ} {ops : List ο}

/-- What every step keeps holds at the end of a run. -/
theorem inv_of_foldlM (keeps : ∀ s o s', inv s → step s o = some s' → inv s') (init : inv s)
    (run : ops.foldlM step s = some s') : inv s' := by
  induction ops generalizing s with
  | nil => simp_all
  | cons o ops ih =>
    rw [List.foldlM_cons, Option.bind_eq_bind, Option.bind_eq_some_iff] at run
    obtain ⟨t, first, rest⟩ := run
    exact ih (keeps s o t init first) rest

/-- A run that gets to its end gets through every initial part of it. -/
theorem exists_of_foldlM_append {pre post : List ο}
    (run : (pre ++ post).foldlM step s = some s') :
    ∃ t, pre.foldlM step s = some t ∧ post.foldlM step t = some s' := by
  rwa [List.foldlM_append, Option.bind_eq_bind, Option.bind_eq_some_iff] at run

end V7Besm.Coop
