import Mathlib.Data.Finset.Card
import Mathlib.Tactic.Ring

/-!
Counters that number the things with a property.

A reference count is a counter that a program moves by one when a thing gets or loses a
property. `Numbers P n` says that the counter is right; the lemmas say how it stays right.
-/

namespace V7Besm.Count

variable {ι : Type*} {P P' : ι → Prop} {n m : Int} {i : ι}

/-- `n` things have the property `P`. -/
def Numbers (P : ι → Prop) (n : Int) : Prop :=
  ∃ S : Finset ι, (∀ i, i ∈ S ↔ P i) ∧ (S.card : Int) = n

namespace Numbers

theorem congr (h : Numbers P n) (same : ∀ i, P' i ↔ P i) : Numbers P' n := by
  obtain ⟨S, mem, card⟩ := h
  exact ⟨S, fun i => (mem i).trans (same i).symm, card⟩

theorem none (nobody : ∀ i, ¬ P i) : Numbers P 0 := ⟨∅, fun i => by simp [nobody i], by simp⟩

theorem gain (h : Numbers P n) (old : ¬ P i) (new : P' i) (same : ∀ j, j ≠ i → (P' j ↔ P j)) :
    Numbers P' (n + 1) := by
  classical
  obtain ⟨S, mem, card⟩ := h
  have fresh : i ∉ S := fun inside => old ((mem i).mp inside)
  refine ⟨insert i S, fun j => ?_, ?_⟩
  · by_cases e : j = i
    · subst e
      simp [new]
    · simp [e, mem, same j e]
  · rw [Finset.card_insert_of_notMem fresh]
    push_cast
    rw [card]

theorem lose (h : Numbers P n) (old : P i) (new : ¬ P' i) (same : ∀ j, j ≠ i → (P' j ↔ P j)) :
    Numbers P' (n - 1) := by
  classical
  obtain ⟨S, mem, card⟩ := h
  have inside : i ∈ S := (mem i).mpr old
  refine ⟨S.erase i, fun j => ?_, ?_⟩
  · by_cases e : j = i
    · subst e
      simp [new]
    · simp [e, mem, same j e]
  · have := Finset.card_erase_add_one inside
    rw [← card, ← this]
    push_cast
    ring

theorem nonneg (h : Numbers P n) : 0 ≤ n := by
  obtain ⟨S, -, card⟩ := h
  omega

theorem pos (h : Numbers P n) (some : P i) : 0 < n := by
  obtain ⟨S, mem, card⟩ := h
  have := Finset.card_pos.mpr ⟨i, (mem i).mpr some⟩
  omega

theorem eq_zero_iff (h : Numbers P n) : n = 0 ↔ ∀ i, ¬ P i := by
  obtain ⟨S, mem, card⟩ := h
  rw [← card, Int.natCast_eq_zero, Finset.card_eq_zero, Finset.eq_empty_iff_forall_notMem]
  simp only [mem]

/-- A single thing that has the property is the only one. -/
theorem unique {j : ι} (h : Numbers P 1) (first : P i) (second : P j) : i = j := by
  obtain ⟨S, mem, card⟩ := h
  obtain ⟨k, rfl⟩ := Finset.card_eq_one.mp (by exact_mod_cast card)
  have hi := (mem i).mpr first
  have hj := (mem j).mpr second
  rw [Finset.mem_singleton] at hi hj
  exact hi.trans hj.symm

end Numbers

/-! ### Tables of references -/

section Tally

variable {κ : Type*} [DecidableEq κ] {ref : ι → Option κ} {live live' : κ → Prop} {num num' : κ → Int}
  {o : Option κ} {y z : κ}

/-- One if the reference is to `y`. -/
def hit (o : Option κ) (y : κ) : Int := if o = some y then 1 else 0

@[simp] theorem hit_none : hit none y = 0 := rfl

@[simp] theorem hit_self : hit (some y) y = 1 := if_pos rfl

theorem hit_of_ne (ne : o ≠ some y) : hit o y = 0 := if_neg ne

theorem hit_nonneg : 0 ≤ hit o y := by
  unfold hit
  split
  · decide
  · decide

/-- All references are to something live, and `num` numbers them. -/
structure Tally (ref : ι → Option κ) (live : κ → Prop) (num : κ → Int) : Prop where
  target : ∀ i y, ref i = some y → live y
  numbers : ∀ y, live y → Numbers (fun i => ref i = some y) (num y)

/-- One reference changes; things may be given up to which there is no other, and new ones
may turn up. -/
theorem Tally.update [DecidableEq ι] (h : Tally ref live num) (i : ι) (o : Option κ)
    (target : ∀ y, o = some y → live' y)
    (gone : ∀ y, live y → ¬ live' y → ∀ j, j ≠ i → ref j ≠ some y)
    (kept : ∀ y, live y → live' y → num' y = num y - hit (ref i) y + hit o y)
    (new : ∀ y, ¬ live y → live' y → num' y = hit o y) :
    Tally (Function.update ref i o) live' num' := by
  refine ⟨?_, ?_⟩
  · intro j y refers
    by_cases e : j = i
    · subst e
      rw [Function.update_self] at refers
      exact target y refers
    · rw [Function.update_of_ne e] at refers
      by_contra dead
      exact gone y (h.target j y refers) dead j e refers
  · intro y alive
    obtain ⟨n, old, now⟩ : ∃ n, Numbers (fun j => ref j = some y) n ∧
        num' y = n - hit (ref i) y + hit o y := by
      by_cases was : live y
      · exact ⟨num y, h.numbers y was, kept y was alive⟩
      · have nobody : ∀ j, ref j ≠ some y := fun j refers => was (h.target j y refers)
        refine ⟨0, .none nobody, ?_⟩
        rw [new y was alive, hit_of_ne (nobody i)]
        ring
    rw [now]
    have same : ∀ j, j ≠ i → (Function.update ref i o j = some y ↔ ref j = some y) := by
      intro j ne
      rw [Function.update_of_ne ne]
    by_cases before : ref i = some y
    · by_cases after : o = some y
      · subst after
        rw [before, sub_add_cancel]
        refine old.congr fun j => ?_
        by_cases e : j = i
        · subst e
          simp [before]
        · rw [same j e]
      · rw [before, hit_self, hit_of_ne after, add_zero]
        exact old.lose before (by simpa using after) same
    · by_cases after : o = some y
      · rw [hit_of_ne before, after, hit_self, sub_zero]
        exact old.gain before (by simp) (after ▸ same)
      · rw [hit_of_ne before, hit_of_ne after, sub_zero, add_zero]
        refine old.congr fun j => ?_
        by_cases e : j = i
        · subst e
          simp [before, after]
        · rw [same j e]

end Tally

end V7Besm.Count
