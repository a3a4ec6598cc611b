import V7Besm.Words.Packed

/-!
Stretches of memory as lists.

`stretch f a n` lists the `n` cells of `f` from `a` on. Storing behind a stretch makes it longer
by one element; storing outside leaves it alone. A whole list can be stored as well.
-/

namespace V7Besm.Words

open Function List

variable {α : Type*} {f g : Nat → α} {a n : Nat}

def stretch (f : Nat → α) (a n : Nat) : List α := (List.range n).map fun i => f (a + i)

@[simp]
theorem length_stretch (f : Nat → α) (a n : Nat) : (stretch f a n).length = n := by
  simp [stretch]

@[simp]
theorem stretch_zero (f : Nat → α) (a : Nat) : stretch f a 0 = [] := rfl

theorem stretch_succ (f : Nat → α) (a n : Nat) :
    stretch f a (n + 1) = stretch f a n ++ [f (a + n)] := by
  simp [stretch, range_succ]

theorem stretch_add (f : Nat → α) (a m n : Nat) :
    stretch f a (m + n) = stretch f a m ++ stretch f (a + m) n := by
  induction n with
  | zero => simp
  | succ n ih => rw [← Nat.add_assoc, stretch_succ, ih, stretch_succ, append_assoc, Nat.add_assoc]

theorem stretch_cons (f : Nat → α) (a n : Nat) :
    stretch f a (n + 1) = f a :: stretch f (a + 1) n := by
  rw [Nat.add_comm, stretch_add, stretch_succ]
  rfl

theorem stretch_congr (same : ∀ b, a ≤ b → b < a + n → f b = g b) : stretch f a n = stretch g a n := by
  refine map_congr_left fun i inside => ?_
  have lt := mem_range.mp inside
  exact same (a + i) (by omega) (by omega)

theorem stretch_update_end (f : Nat → α) (a n : Nat) (x : α) :
    stretch (update f (a + n) x) a (n + 1) = stretch f a n ++ [x] := by
  rw [stretch_succ, update_self]
  congr 1
  refine stretch_congr fun b _ lt => ?_
  rw [update_of_ne (by omega)]

theorem stretch_update (f : Nat → α) {i : Nat} (x : α) :
    stretch (update f (a + i) x) a n = (stretch f a n).set i x := by
  refine ext_getElem (by simp) fun j lt _ => ?_
  rw [getElem_set]
  simp only [stretch, getElem_map, getElem_range]
  by_cases here : i = j
  · rw [if_pos here, here, update_self]
  · rw [if_neg here, update_of_ne (by omega)]

/-! ### Storing a list -/

/-- The elements of `l` stored from `a` on. -/
def storeAll (f : Nat → α) (a : Nat) : List α → Nat → α
  | [] => f
  | x :: l => storeAll (update f a x) (a + 1) l

theorem storeAll_of_not_mem {l : List α} {b : Nat} (outside : b < a ∨ a + l.length ≤ b) :
    storeAll f a l b = f b := by
  induction l generalizing f a with
  | nil => rfl
  | cons x l ih =>
    rw [length_cons] at outside
    rw [storeAll, ih (by omega), update_of_ne (by omega)]

theorem stretch_storeAll (f : Nat → α) (a : Nat) (l : List α) :
    stretch (storeAll f a l) a l.length = l := by
  induction l generalizing f a with
  | nil => rfl
  | cons x l ih =>
    rw [length_cons, stretch_cons, storeAll, ih, storeAll_of_not_mem (Or.inl (Nat.lt_succ_self a)),
      update_self]

end V7Besm.Words
