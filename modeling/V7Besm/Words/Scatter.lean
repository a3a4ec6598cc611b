import Mathlib.Data.List.Induction
import Mathlib.Data.List.TakeDrop
import Mathlib.Algebra.GroupWithZero.Nat

/-!
Gathering and scattering the bits of a word by a mask.

A word is the list of its bits, the most significant one first. Gathering collects the bits
that the mask selects at the top of the word, scattering distributes the bits from the top
over the places that the mask selects.
-/

namespace V7Besm.Words

open List

/-- The bits of `v`, from the top, at the places that the mask selects. -/
def scatter : List Bool → List Bool → List Bool
  | [], _ => []
  | false :: m, v => false :: scatter m v
  | true :: m, v => v.headD false :: scatter m v.tail

/-- A bit comes in at the top of the result. -/
def shiftIn (r : List Bool) (b : Bool) : List Bool := b :: r.dropLast

/-- The selected bits of `w`, the lowest one first, come in at the top of a word of zeroes. -/
def gather (m w : List Bool) : List Bool :=
  (m.zip w).foldr (fun p r => if p.1 then shiftIn r p.2 else r) (List.replicate m.length false)

/-- The bits that the mask selects. -/
def selected : List Bool → List Bool → List Bool
  | true :: m, b :: w => b :: selected m w
  | false :: m, _ :: w => selected m w
  | _, _ => []

/-- Bitwise or. -/
def orBits (v w : List Bool) : List Bool := v.zipWith (· || ·) w

variable {m v w : List Bool}

attribute [local simp] selected

theorem length_selected_le (m w : List Bool) : (selected m w).length ≤ m.length := by
  induction m, w using selected.induct <;> simp_all; omega

theorem dropLast_pad (l : List Bool) (n : Nat) :
    (l ++ List.replicate (n + 1) false).dropLast = l ++ List.replicate n false := by
  rw [replicate_succ', ← append_assoc, dropLast_concat]

theorem gather_pad (m w : List Bool) (n : Nat) (room : (selected m w).length ≤ n) :
    (m.zip w).foldr (fun p r => if p.1 then shiftIn r p.2 else r) (List.replicate n false) =
      selected m w ++ List.replicate (n - (selected m w).length) false := by
  induction m, w using selected.induct with
  | case1 m b w ih =>
    simp only [selected, length_cons] at room ⊢
    have left : n - (selected m w).length = n - ((selected m w).length + 1) + 1 := by omega
    rw [zip_cons_cons, foldr_cons, if_pos rfl, ih (by omega), shiftIn, left,
      dropLast_pad, cons_append]
  | case2 m b w ih => simpa using ih room
  | case3 m w not_true not_false =>
    match m, w with
    | [], _ => simp
    | _ :: _, [] => simp
    | true :: m, b :: w => exact absurd rfl (not_true m b w rfl)
    | false :: m, b :: w => exact absurd rfl (not_false m b w rfl)

/-- What is gathered: the selected bits at the top. -/
theorem gather_eq (m w : List Bool) :
    gather m w = selected m w ++ List.replicate (m.length - (selected m w).length) false :=
  gather_pad m w m.length (length_selected_le m w)

@[simp]
theorem length_scatter (m v : List Bool) : (scatter m v).length = m.length := by
  induction m, v using scatter.induct <;> simp_all [scatter]

@[simp]
theorem length_orBits (v w : List Bool) : (orBits v w).length = min v.length w.length :=
  length_zipWith

/-- Selecting what has been scattered gives back the bits from the top. -/
theorem selected_scatter (m v : List Bool) :
    selected m (scatter m v) = v.takeD (m.count true) false := by
  induction m, v using scatter.induct with
  | case1 => rfl
  | case2 m v ih => simp [scatter, ih]
  | case3 m v ih => simp [scatter, ih, takeD_succ]

theorem selected_orBits (same : v.length = w.length) :
    selected m (orBits v w) = orBits (selected m v) (selected m w) := by
  induction m generalizing v w with
  | nil => rfl
  | cons b m ih =>
    match v, w, same with
    | [], [], _ => cases b <;> rfl
    | x :: v, y :: w, same =>
      have same : v.length = w.length := by simpa using same
      cases b <;> simpa [orBits] using ih same

/-- Where the mask has no bit, nothing is scattered to. -/
theorem scatter_getD {i : Nat} (clear : m.getD i false = false) :
    (scatter m v).getD i false = false := by
  induction m, v using scatter.induct generalizing i with
  | case1 => exact clear
  | case2 m v ih | case3 m v ih => cases i <;> simp_all [scatter]

theorem orBits_getD {i : Nat} (same : v.length = w.length) :
    (orBits v w).getD i false = (v.getD i false || w.getD i false) := by
  induction v generalizing w i with
  | nil => cases w <;> simp_all [orBits]
  | cons x v ih =>
    match w, same with
    | y :: w, same =>
      cases i with
      | zero => rfl
      | succ i => exact ih (by simpa using same)

/-- A word without bits where the mask has them. -/
theorem selected_of_clear (same : m.length = w.length)
    (clear : ∀ i, m.getD i false = true → w.getD i false = false) :
    selected m w = List.replicate (m.count true) false := by
  induction m generalizing w with
  | nil => rfl
  | cons b m ih =>
    match w, same with
    | y :: w, same =>
      have rest := ih (by simpa using same) fun i => clear (i + 1)
      cases b with
      | false => simpa using rest
      | true =>
        have first : y = false := clear 0 rfl
        simp [rest, first, replicate_succ]

theorem orBits_replicate {n : Nat} (same : v.length = n) :
    orBits v (List.replicate n false) = v := by
  induction v generalizing n with
  | nil => simp [orBits]
  | cons x v ih =>
    subst same
    have rest := ih rfl
    simpa [orBits, replicate_succ] using rest

theorem replicate_orBits {n : Nat} (same : v.length = n) :
    orBits (List.replicate n false) v = v := by
  rw [orBits, zipWith_comm_of_comm Bool.or_comm]
  exact orBits_replicate same

/-- Scattering what has been selected leaves the bits that the mask selects. -/
theorem scatter_selected (same : m.length = w.length) (l : List Bool) :
    scatter m (selected m w ++ l) = w.zipWith (· && ·) m := by
  induction m generalizing w with
  | nil => simp [scatter]
  | cons b m ih =>
    match w, same with
    | x :: w, same =>
      have rest := ih (w := w) (by simpa using same)
      cases b <;> simpa [scatter, selected] using rest

/-! ### Numbers -/

/-- The low `n` bits of a number. -/
def bits : Nat → Nat → List Bool
  | 0, _ => []
  | n + 1, x => x.testBit n :: bits n x

/-- The number that bits denote. -/
def value : List Bool → Nat
  | [] => 0
  | b :: l => b.toNat * 2 ^ l.length + value l

@[simp]
theorem length_bits (n x : Nat) : (bits n x).length = n := by
  induction n <;> simp_all [bits]

theorem value_bits (n x : Nat) : value (bits n x) = x % 2 ^ n := by
  induction n with
  | zero => simp [bits, value, Nat.mod_one]
  | succ n ih =>
    rw [bits, value, ih, length_bits, Nat.mod_pow_succ, Nat.toNat_testBit, Nat.add_comm,
      Nat.mul_comm]

theorem value_append (v w : List Bool) : value (v ++ w) = value v * 2 ^ w.length + value w := by
  induction v with
  | nil => simp [value]
  | cons b v ih => rw [cons_append, value, value, ih, length_append]; grind

theorem value_lt (l : List Bool) : value l < 2 ^ l.length := by
  induction l with
  | nil => simp [value]
  | cons b l ih => cases b <;> simp [value] <;> omega

theorem value_replicate (n : Nat) : value (List.replicate n false) = 0 := by
  induction n <;> simp_all [replicate_succ, value]

theorem bits_append (c n x : Nat) : bits (c + n) x = bits c (x / 2 ^ n) ++ bits n x := by
  induction c with
  | zero => simp [bits]
  | succ c ih =>
    rw [Nat.succ_add, bits, bits, ih, Nat.testBit_div_two_pow, cons_append, Nat.add_comm]

theorem bits_and (n x y : Nat) : bits n (x &&& y) = (bits n x).zipWith (· && ·) (bits n y) := by
  induction n with
  | zero => rfl
  | succ n ih => simp [bits, ih]

theorem bits_value (l : List Bool) : bits l.length (value l) = l := by
  induction l using reverseRecOn with
  | nil => rfl
  | append_singleton l b ih =>
    rw [length_append, length_singleton, bits_append, value_append]
    have odd : (value l * 2 + 1) / 2 = value l := by omega
    cases b <;> simp [value, bits, ih, odd]

end V7Besm.Words
