import Mathlib.Data.List.Forall2

/-!
Computations that may fail, taken apart.

From the success of a sequence of fallible steps: the success of each, and for a
list the outputs one by one; for a fold, what its steps preserve.
-/

namespace V7Besm.Fallible

open List

variable {ε α β : Type} {f : α → Except ε β} {xs : List α} {ys : List β}

theorem bind_eq_ok {x : Except ε α} {r : β} : (x >>= f) = .ok r ↔ ∃ a, x = .ok a ∧ f a = .ok r := by
  cases x with
  | error e | ok a => simp [bind, Except.bind]

theorem mapM_eq_ok : xs.mapM f = .ok ys ↔ List.Forall₂ (fun x y => f x = .ok y) xs ys := by
  induction xs generalizing ys with
  | nil =>
    rw [mapM_nil, forall₂_nil_left_iff]
    constructor
    · intro ok
      cases ok
      rfl
    · rintro rfl
      rfl
  | cons x xs ih =>
    rw [mapM_cons, bind_eq_ok, forall₂_cons_left_iff]
    constructor
    · rintro ⟨y, head, rest⟩
      obtain ⟨tail, ok, done⟩ := bind_eq_ok.mp rest
      cases done
      exact ⟨y, tail, head, ih.mp ok, rfl⟩
    · rintro ⟨y, tail, head, each, rfl⟩
      exact ⟨y, head, bind_eq_ok.mpr ⟨tail, ih.mpr each, rfl⟩⟩

/-- The output for the element at a position stands at that position. -/
theorem getElem?_of_mapM (ok : xs.mapM f = .ok ys) {i : Nat} {x : α} (at_i : xs[i]? = some x) :
    ∃ y, ys[i]? = some y ∧ f x = .ok y := by
  have each := mapM_eq_ok.mp ok
  clear ok
  induction each generalizing i with
  | nil => simp at at_i
  | cons head _ ih =>
    cases i with
    | zero =>
      cases at_i
      exact ⟨_, rfl, head⟩
    | succ i => exact ih at_i

/-- And every output comes from the element at its position. -/
theorem getElem?_of_mapM' (ok : xs.mapM f = .ok ys) {i : Nat} {y : β} (at_i : ys[i]? = some y) :
    ∃ x, xs[i]? = some x ∧ f x = .ok y := by
  have each := mapM_eq_ok.mp ok
  clear ok
  induction each generalizing i with
  | nil => simp at at_i
  | cons head _ ih =>
    cases i with
    | zero =>
      cases at_i
      exact ⟨_, rfl, head⟩
    | succ i => exact ih at_i

theorem length_of_mapM (ok : xs.mapM f = .ok ys) : ys.length = xs.length :=
  (mapM_eq_ok.mp ok).length_eq.symm

section Folds

variable {σ : Type} {f : σ → α → Except ε σ} {s s' : σ} {l : List α}

theorem foldlM_cons_eq_ok {a : α} :
    (a :: l).foldlM f s = .ok s' ↔ ∃ s₁, f s a = .ok s₁ ∧ l.foldlM f s₁ = .ok s' := by
  rw [foldlM_cons, bind_eq_ok]

/-- What the steps of a fold that succeeds preserve, as a property of the elements done. -/
theorem foldlM_invariant {I : List α → σ → Prop} (start : I [] s)
    (step : ∀ done a s s', I done s → a ∈ l → f s a = .ok s' → I (done ++ [a]) s')
    (ok : l.foldlM f s = .ok s') : I l s' := by
  have general : ∀ (rest done : List α) (s : σ), (∀ a ∈ rest, a ∈ l) → I done s →
      rest.foldlM f s = .ok s' → I (done ++ rest) s' := by
    intro rest
    induction rest with
    | nil =>
      intro done s _ holds ok
      cases ok
      rwa [append_nil]
    | cons a rest ih =>
      intro done s inside holds ok
      obtain ⟨s₁, first, ok⟩ := foldlM_cons_eq_ok.mp ok
      have next := step done a s s₁ holds (inside a mem_cons_self) first
      have all := ih (done ++ [a]) s₁ (fun b within => inside b (mem_cons_of_mem _ within))
        next ok
      rwa [append_assoc] at all
  exact general l [] s (fun _ within => within) start ok

/-- If every step succeeds from the states of the invariant, the fold does. -/
theorem foldlM_total {I : List α → σ → Prop} (start : I [] s)
    (step : ∀ done a rest s, l = done ++ a :: rest → I done s →
      ∃ s', f s a = .ok s' ∧ I (done ++ [a]) s') :
    ∃ s', l.foldlM f s = .ok s' ∧ I l s' := by
  have general : ∀ (rest done : List α) (s : σ), l = done ++ rest → I done s →
      ∃ s', rest.foldlM f s = .ok s' ∧ I l s' := by
    intro rest
    induction rest with
    | nil =>
      intro done s split holds
      rw [append_nil] at split
      exact ⟨s, rfl, split ▸ holds⟩
    | cons a rest ih =>
      intro done s split holds
      obtain ⟨s₁, first, next⟩ := step done a rest s split holds
      obtain ⟨s', ok, all⟩ := ih (done ++ [a]) s₁ (by rw [split, append_cons]) next
      exact ⟨s', foldlM_cons_eq_ok.mpr ⟨s₁, first, ok⟩, all⟩
  exact general l [] s rfl start

end Folds

end V7Besm.Fallible
