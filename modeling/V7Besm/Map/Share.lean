import V7Besm.Map.Pool

/-!
A pool of units among its owners.

Every unit of a pool is free or in the run of exactly one owner. The owners are of any
type, and have at most one run each; what an owner does with the map changes its own run only
(`Shared.trade`).
-/

namespace V7Besm.Map

open Function

variable {ι : Type} {base size n a lo w : Nat} {m m' : List Entry} {run : ι → Option Entry}
  {o : ι} {x : Option Entry} {r : Entry}

/-- The unit `w` is in the run, if there is one. -/
def In (x : Option Entry) (w : Nat) : Prop := ∃ r, x = some r ∧ r.Has w

@[simp] theorem in_none : ¬ In none w := by simp [In]

@[simp] theorem in_some : In (some r) w ↔ r.Has w := by simp [In]

structure Shared (base size : Nat) (m : List Entry) (run : ι → Option Entry) : Prop where
  behind : 0 < base
  tidy : Tidy 0 m
  pos : ∀ o r, run o = some r → r.size ≠ 0
  apart : ∀ o o' w, In (run o) w → In (run o') w → o = o'
  free : ∀ w, Free m w → ∀ o, ¬ In (run o) w
  all : ∀ w, (Free m w ∨ ∃ o, In (run o) w) ↔ Entry.Has ⟨size, base⟩ w

theorem Shared.start {spare : List Entry} (pos : size ≠ 0) (behind : 0 < base)
    (zero : ∀ e ∈ spare, e.size = 0) (nobody : ∀ o : ι, run o = none) :
    Shared base size (⟨size, base⟩ :: spare) run where
  behind := behind
  tidy := (tidy_cons pos).mpr ⟨behind, tidy_of_zero zero⟩
  pos o r mine := by simp [nobody] at mine
  apart o o' w mine := by simp [nobody] at mine
  free w _ o := by simp [nobody]
  all w := by simp [nobody, Free, live_cons, pos, live_of_zero zero]

section

variable (sh : Shared base size m run)

include sh

/-- The run of `n` units that `malloc` finds, if it finds one. -/
theorem Shared.taken (pos : n ≠ 0) (got : (malloc m n).1 ≠ 0) :
    Taken 0 n (malloc m n).1 m (malloc m n).2 := by
  rcases malloc_spec sh.tidy (Nat.pos_of_ne_zero pos) with ⟨fails, -⟩ | taken
  · exact absurd (by rw [fails]) got
  · exact taken

/-- Everything in the run of an owner is behind 0. -/
theorem Shared.addr_pos (mine : run o = some r) : 0 < r.addr := by
  have has : In (run o) r.addr := by
    rw [mine, in_some]
    have := sh.pos o r mine
    exact ⟨Nat.le_refl _, by omega⟩
  have := ((sh.all r.addr).mp (.inr ⟨o, has⟩)).1
  exact Nat.lt_of_lt_of_le sh.behind this

/-- A part of the run of an owner can be given back. -/
theorem Shared.given (mine : run o = some r) (pos : n ≠ 0)
    (within : ∀ w, Entry.Has ⟨n, a⟩ w → r.Has w) (behind : 0 < a) :
    Given 0 n a m (mfree m n a) := by
  refine Map.mfree_spec sh.tidy (fun w free has => ?_) pos behind
  exact sh.free w free o (by rw [mine, in_some]; exact within w has)

theorem Shared.borrow (pos : n ≠ 0) (got : (Map.malloc m n).1 ≠ 0) :
    Shared base size (Map.mfree (Map.malloc m n).2 n (Map.malloc m n).1) run := by
  have taken := sh.taken pos got
  have given : Given 0 n (Map.malloc m n).1 _ _ :=
    Map.mfree_spec taken.tidy taken.apart pos taken.behind
  have same : ∀ w, Free (Map.mfree (Map.malloc m n).2 n (Map.malloc m n).1) w ↔ Free m w :=
    fun w => (given.free w).trans (taken.free w).symm
  exact ⟨sh.behind, given.tidy, sh.pos, sh.apart, fun w free => sh.free w ((same w).mp free),
    fun w => by rw [same w, sh.all w]⟩

end

/-! ### What owners do with the map -/

section Trade

variable [DecidableEq ι]

section

variable (sh : Shared base size m run)

include sh

/-- One owner trades its run for another one, with the map. -/
theorem Shared.trade (o : ι) (tidy : Tidy 0 m') (pos : ∀ r, x = some r → r.size ≠ 0)
    (same : ∀ w, Free m' w ∨ In x w ↔ Free m w ∨ In (run o) w)
    (apart : ∀ w, Free m' w → ¬ In x w) : Shared base size m' (update run o x) where
  behind := sh.behind
  tidy := tidy
  pos o' r mine := by
    by_cases e : o' = o
    · subst e
      exact pos r (by simpa using mine)
    · exact sh.pos o' r (by simpa [update_of_ne e] using mine)
  apart := by
    -- the only owner whose run is new has it from what was free, or its own
    have other : ∀ o' w, o' ≠ o → In (run o') w → ¬ In x w := by
      intro o' w ne theirs mine
      rcases (same w).mp (.inr mine) with free | old
      · exact sh.free w free o' theirs
      · exact ne (sh.apart o' o w theirs old)
    intro o₁ o₂ w h₁ h₂
    by_cases e₁ : o₁ = o
    · by_cases e₂ : o₂ = o
      · exact e₁.trans e₂.symm
      · subst e₁
        rw [update_self] at h₁
        rw [update_of_ne e₂] at h₂
        exact absurd h₁ (other o₂ w e₂ h₂)
    · rw [update_of_ne e₁] at h₁
      by_cases e₂ : o₂ = o
      · subst e₂
        rw [update_self] at h₂
        exact absurd h₂ (other o₁ w e₁ h₁)
      · rw [update_of_ne e₂] at h₂
        exact sh.apart o₁ o₂ w h₁ h₂
  free w free o' := by
    by_cases e : o' = o
    · subst e
      rw [update_self]
      exact apart w free
    · rw [update_of_ne e]
      intro theirs
      rcases (same w).mp (.inl free) with old | mine
      · exact sh.free w old o' theirs
      · exact e (sh.apart o' o w theirs mine)
  all w := by
    rw [← sh.all w]
    constructor
    · rintro (free | ⟨o', has⟩)
      · exact ((same w).mp (.inl free)).imp_right fun mine => ⟨o, mine⟩
      · by_cases e : o' = o
        · subst e
          rw [update_self] at has
          exact ((same w).mp (.inr has)).imp_right fun mine => ⟨o', mine⟩
        · rw [update_of_ne e] at has
          exact .inr ⟨o', has⟩
    · rintro (free | ⟨o', has⟩)
      · refine ((same w).mpr (.inl free)).imp_right fun mine => ⟨o, ?_⟩
        rwa [update_self]
      · by_cases e : o' = o
        · subst e
          refine ((same w).mpr (.inr has)).imp_right fun mine => ⟨o', ?_⟩
          rwa [update_self]
        · refine .inr ⟨o', ?_⟩
          rwa [update_of_ne e]

theorem Shared.malloc (none : run o = none) (pos : n ≠ 0) (got : (malloc m n).1 ≠ 0) :
    Shared base size (malloc m n).2 (update run o (some ⟨n, (malloc m n).1⟩)) := by
  have taken := sh.taken pos got
  refine sh.trade o taken.tidy ?_ ?_ ?_
  · rintro r ⟨⟩
    exact pos
  · intro w
    rw [none, taken.free w]
    simp
  · intro w free
    rw [in_some]
    exact taken.apart w free

theorem Shared.mfree (mine : run o = some r) :
    Shared base size (mfree m r.size r.addr) (update run o none) := by
  have given := sh.given mine (sh.pos o r mine) (fun _ has => has) (sh.addr_pos mine)
  refine sh.trade o given.tidy (by simp) ?_ (by simp)
  intro w
  rw [mine, given.free w]
  simp

/-- An owner gives the end of its run back, and perhaps nothing. -/
theorem Shared.shrink (mine : run o = some r) (pos : n ≠ 0)
    (le : n ≤ r.size) : Shared base size (Map.mfree m (r.size - n) (r.addr + n))
      (update run o (some ⟨n, r.addr⟩)) := by
  have kept : ∀ x, some (Entry.mk n r.addr) = some x → x.size ≠ 0 := by
    rintro x ⟨⟩
    exact pos
  rcases Nat.eq_or_lt_of_le le with rfl | lt
  · rw [Nat.sub_self, mfree_zero sh.tidy]
    refine sh.trade o sh.tidy kept (fun w => by rw [mine]) fun w free => ?_
    have := sh.free w free o
    rwa [mine] at this
  have given := sh.given (n := r.size - n) (a := r.addr + n) mine (by omega)
    (fun w has => by simp only [Entry.Has] at *; omega)
    (Nat.lt_of_lt_of_le (sh.addr_pos mine) (Nat.le_add_right _ _))
  refine sh.trade o given.tidy kept (fun w => ?_) fun w free => ?_
  · rw [mine, given.free w, in_some, in_some, or_assoc]
    refine or_congr_right ?_
    simp only [Entry.Has]
    omega
  rw [in_some]
  rcases (given.free w).mp free with old | back
  · have := sh.free w old o
    rw [mine, in_some] at this
    simp only [Entry.Has] at *
    omega
  · simp only [Entry.Has] at *
    omega

/-- An owner takes a run and gives its old one back. -/
theorem Shared.replace (mine : run o = some r) (pos : n ≠ 0)
    (got : (Map.malloc m n).1 ≠ 0) : Shared base size (Map.mfree (Map.malloc m n).2 r.size r.addr)
      (update run o (some ⟨n, (Map.malloc m n).1⟩)) := by
  have taken := sh.taken pos got
  have old : ∀ w, Free m w → ¬ r.Has w := by
    intro w free
    have := sh.free w free o
    rwa [mine, in_some] at this
  have given : Given 0 r.size r.addr _ _ :=
    Map.mfree_spec taken.tidy (fun w free => old w ((taken.free w).mpr (.inl free)))
      (sh.pos o r mine) (sh.addr_pos mine)
  refine sh.trade o given.tidy ?_ (fun w => ?_) fun w free => ?_
  · rintro x ⟨⟩
    exact pos
  · rw [mine, given.free w, taken.free w, in_some, in_some, or_right_comm]
  · rw [in_some]
    rcases (given.free w).mp free with rest | back
    · exact taken.apart w rest
    · exact fun has => old w ((taken.free w).mpr (.inr has)) back

end

end Trade

end V7Besm.Map
